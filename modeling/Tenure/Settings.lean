/-!
# Settings

How an engine takes its locks: how often it tries, how long it pauses in between, and after what
age a lock that somebody else holds counts as abandoned.
-/

namespace Tenure

/-- Why settings are refused. -/
inductive SettingsError
  /-- The source that the settings come from cannot be read. -/
  | unreadable
  | noAttempts
  | noTtl
  | ttlTooLong
  deriving DecidableEq, Repr

/-- What is wrong with settings that could be read. -/
def SettingsError.fault? : SettingsError → Option String
  | .unreadable => none
  | .noAttempts => some "lock_retry_attempts must be at least 1"
  | .noTtl => some "lock_ttl_secs must be at least 1"
  | .ttlTooLong => some "lock_ttl_secs must be at most one year"

/-- The text of the error; a source that cannot be read has none of its own. -/
def SettingsError.message? (e : SettingsError) : Option String :=
  e.fault?.map ("validation failed: " ++ ·)

structure Settings where
  attempts : Nat := 20
  backoffMillis : Nat := 25
  ttlSeconds : Nat := 60
  deriving DecidableEq, Repr

namespace Settings

/-- A year of 365 days. -/
def maxTtlSeconds : Nat := 365 * 24 * 60 * 60

def validate (s : Settings) : Except SettingsError Unit :=
  if s.attempts = 0 then .error .noAttempts
  else if s.ttlSeconds = 0 then .error .noTtl
  else if maxTtlSeconds < s.ttlSeconds then .error .ttlTooLong
  else .ok ()

/-- The age at which a lock counts as abandoned, a year at most. -/
def lockTtlSeconds (s : Settings) : Nat := min s.ttlSeconds maxTtlSeconds

end Settings

end Tenure
