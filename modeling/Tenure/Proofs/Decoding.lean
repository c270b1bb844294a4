import Mathlib.Algebra.Group.Nat.Defs
import Tenure.Payload.Encoding

/-!
# Reading payloads back

A payload is stored as a string of bytes that says itself where it ends. Reading takes off the front
exactly what writing put there, whatever follows (`Packed.ReadsBack`); this is shown for a text, for
an array and for a map of one entry, and from these for payloads.

**Theorem (`Payload.decodes_alone`).** What was written for a payload, with any bytes behind it, is
read as that payload. So the bytes of one payload are never the front of those of another, and the
bytes of two payloads differ.

A text has one of four headers, by its length. The bounds 32, 256 and 65536 appear in
`readHeader?_textHeader` only; the largest header has room for a length below 2³².
-/

namespace Tenure

/-! ## Numbers -/

namespace Bytes

@[simp] theorem length_bigEndian (width n : Nat) : (bigEndian width n).length = width := by
  induction width generalizing n with
  | zero => rfl
  | succ width ih => simp [bigEndian, ih]

theorem ofBigEndian_concat (bytes : List UInt8) (b : UInt8) :
    ofBigEndian (bytes ++ [b]) = 256 * ofBigEndian bytes + b.toNat := by
  simp [ofBigEndian]

theorem ofBigEndian_bigEndian {width n : Nat} (h : n < 256 ^ width) :
    ofBigEndian (bigEndian width n) = n := by
  induction width generalizing n with
  | zero =>
    have hzero : n = 0 := by simpa using h
    rw [hzero]
    rfl
  | succ width ih =>
    have hhigh : n / 256 < 256 ^ width := by
      rw [Nat.pow_succ] at h
      omega
    have hlow : (UInt8.ofNat (n % 256)).toNat = n % 256 := by simp
    rw [bigEndian, ofBigEndian_concat, ih hhigh, hlow]
    omega

end Bytes

namespace Packed

theorem take?_append (front rest : List UInt8) :
    take? front.length (front ++ rest) = some (front, rest) := by
  simp [take?]

theorem takeNat?_bigEndian {width n : Nat} (h : n < 256 ^ width) (rest : List UInt8) :
    takeNat? width (Bytes.bigEndian width n ++ rest) = some (n, rest) := by
  have htake := take?_append (Bytes.bigEndian width n) rest
  rw [Bytes.length_bigEndian] at htake
  simp [takeNat?, htake, Bytes.ofBigEndian_bigEndian h]

/-! ## Headers -/

/-- The byte of a short header, for a kind of value that starts at `base`. -/
theorem toNat_ofNat_add {base n : Nat} (h : base + n < 256) :
    (UInt8.ofNat (base + n)).toNat = base + n := by
  rw [UInt8.toNat_ofNat']
  exact Nat.mod_eq_of_lt h

/-- Each of the four headers of a text announces its length. -/
theorem readHeader?_textHeader {n : Nat} (h : n < 2 ^ 32) (rest : List UInt8) :
    readHeader? (textHeader n ++ rest) = some (.text n, rest) := by
  unfold textHeader
  by_cases h5 : n < 32
  · have hbyte : (UInt8.ofNat (0xa0 + n)).toNat = 0xa0 + n := toNat_ofNat_add (by omega)
    rw [if_pos h5, List.singleton_append, readHeader?]
    simp only [hbyte]
    rw [if_neg (by omega), if_neg (by omega), if_neg (by omega), if_pos (by omega),
      Nat.add_sub_cancel_left]
  rw [if_neg h5]
  by_cases h8 : n < 256
  · rw [if_pos h8, List.cons_append, readHeader?]
    simp [takeNat?_bigEndian (show n < 256 ^ 1 from h8)]
  rw [if_neg h8]
  by_cases h16 : n < 65536
  · rw [if_pos h16, List.cons_append, readHeader?]
    simp [takeNat?_bigEndian (show n < 256 ^ 2 from h16)]
  · rw [if_neg h16, List.cons_append, readHeader?]
    simp [takeNat?_bigEndian (show n < 256 ^ 4 from h)]

theorem readHeader?_shortArrayHeader {n : Nat} (h : n < 16) (rest : List UInt8) :
    readHeader? (shortArrayHeader n :: rest) = some (.array n, rest) := by
  have hbyte : (UInt8.ofNat (0x90 + n)).toNat = 0x90 + n := toNat_ofNat_add (by omega)
  rw [readHeader?, shortArrayHeader]
  simp only [hbyte]
  rw [if_neg (by omega), if_neg (by omega), if_pos (by omega), Nat.add_sub_cancel_left]

theorem readHeader?_shortMapHeader {n : Nat} (h : n < 16) (rest : List UInt8) :
    readHeader? (shortMapHeader n :: rest) = some (.map n, rest) := by
  have hbyte : (UInt8.ofNat (0x80 + n)).toNat = 0x80 + n := toNat_ofNat_add (by omega)
  rw [readHeader?, shortMapHeader]
  simp only [hbyte]
  rw [if_neg (by omega), if_pos (by omega), Nat.add_sub_cancel_left]

/-! ## Values -/

/-- The bytes are read as the value, and what follows them is left alone. -/
def ReadsBack (depth : Nat) (bytes : List UInt8) (value : Packed) : Prop :=
  ∀ rest, read? depth (bytes ++ rest) = some (value, rest)

/-- A value is read by `readWith?` at every depth; the depth decides only what its parts are read
by. -/
theorem read?_eq (depth : Nat) : ∃ inner, read? depth = readWith? inner := by
  cases depth with
  | zero => exact ⟨_, rfl⟩
  | succ depth => exact ⟨_, rfl⟩

theorem readsBack_text (depth : Nat) {s : String} (h : (utf8 s).length < 2 ^ 32) :
    ReadsBack depth (writeText s) (.text (utf8 s)) := by
  intro rest
  obtain ⟨inner, hread⟩ := read?_eq depth
  rw [hread, writeText, List.append_assoc]
  simp [readWith?, readHeader?_textHeader h, take?_append]

/-- Things that are read back one by one are read back in a row. -/
theorem readMany?_flatMap {α β : Type} {read : List UInt8 → Option (β × List UInt8)}
    {write : α → List UInt8} {value : α → β} {items : List α}
    (h : ∀ a ∈ items, ∀ rest, read (write a ++ rest) = some (value a, rest))
    (rest : List UInt8) :
    readMany? read items.length (items.flatMap write ++ rest) = some (items.map value, rest) := by
  induction items with
  | nil => rfl
  | cons a items ih =>
    have hhead := h a (.head _)
    have htail := ih fun b hb => h b (.tail _ hb)
    simp [readMany?, hhead, htail]

theorem readsBack_array {α : Type} {depth : Nat} {write : α → List UInt8} {value : α → Packed}
    {items : List α} (hlength : items.length < 16)
    (h : ∀ a ∈ items, ReadsBack depth (write a) (value a)) :
    ReadsBack (depth + 1) (shortArrayHeader items.length :: items.flatMap write)
      (.array (items.map value)) := by
  intro rest
  rw [List.cons_append, read?]
  simp [readWith?, readHeader?_shortArrayHeader hlength, readMany?_flatMap h]

theorem readsBack_entry {depth : Nat} {k v : List UInt8} {key value : Packed}
    (hkey : ReadsBack depth k key) (hvalue : ReadsBack depth v value) :
    ReadsBack (depth + 1) (shortMapHeader 1 :: k ++ v) (.map [(key, value)]) := by
  intro rest
  rw [List.cons_append, List.cons_append, List.append_assoc, read?]
  simp [readWith?, readHeader?_shortMapHeader (n := 1) (by decide), readMany?, hkey _, hvalue _]

/-- A text is valid, and none other has its bytes. -/
theorem asText?_utf8 (s : String) : asText? (.text (utf8 s)) = some s := by
  have hbytes : (utf8 s).toByteArray = s.toByteArray := ByteArray.ext List.data_toByteArray
  simp only [asText?, content?, Option.bind_some, hbytes, String.fromUTF8?]
  rw [dif_pos s.isValidUTF8]
  rfl

end Packed

/-! ## Payloads -/

namespace Payload

/-- The texts of the payload are short enough for their headers. -/
def Writable (p : Payload) : Prop := ∀ text ∈ p.fields, (Packed.utf8 text).length < 2 ^ 32

instance (p : Payload) : Decidable p.Writable :=
  inferInstanceAs (Decidable (∀ text ∈ p.fields, (Packed.utf8 text).length < 2 ^ 32))

/-- The value that is written for a payload. -/
def packed (p : Payload) : Packed :=
  match p with
  | .cancel | .uncancel => .text (Packed.utf8 p.type.word)
  | _ => .map [(.text (Packed.utf8 p.type.word),
      .array (p.fields.map fun text => .text (Packed.utf8 text)))]

theorem length_word (t : EventType) : (Packed.utf8 t.word).length < 2 ^ 32 := by
  cases t <;> decide +kernel

theorem typeOf?_word (t : EventType) : typeOf? (.text (Packed.utf8 t.word)) = some t := by
  cases t <;> decide +kernel

theorem length_fields (p : Payload) : p.fields.length = (fieldNames p.type).length := by
  cases p <;> rfl

/-- Reading the bytes of a payload comes to its value two levels down. -/
theorem readsBack {p : Payload} (h : p.Writable) (depth : Nat) :
    Packed.ReadsBack (depth + 2) p.encode p.packed := by
  have hword (depth : Nat) := Packed.readsBack_text depth (length_word p.type)
  have hfields : Packed.ReadsBack (depth + 1)
      (Packed.shortArrayHeader p.fields.length :: p.fields.flatMap Packed.writeText)
      (.array (p.fields.map fun text => .text (Packed.utf8 text))) := by
    refine Packed.readsBack_array ?_ fun text htext => Packed.readsBack_text depth (h text htext)
    cases p <;> simp [fields]
  cases p with
  | cancel | uncancel => exact hword _
  | _ => exact Packed.readsBack_entry (hword _) hfields

theorem fieldsOf?_array (p : Payload) :
    fieldsOf? (fieldNames p.type) (.array (p.fields.map fun text => .text (Packed.utf8 text))) =
      some p.fields := by
  have htexts (texts : List String) :
      (texts.map fun text => Packed.text (Packed.utf8 text)).mapM Packed.asText? = some texts := by
    induction texts with
    | nil => rfl
    | cons text texts ih => simp [Packed.asText?_utf8, ih]
  rw [fieldsOf?, if_pos (by rw [List.length_map, length_fields]), htexts]

theorem ofPacked?_packed (p : Payload) : ofPacked? p.packed = some p := by
  have htype := typeOf?_word p.type
  have hfields := fieldsOf?_array p
  have hback := ofFields?_fields p
  cases p with
  | cancel | uncancel =>
    simp only [packed, ofPacked?, htype, Option.bind_eq_bind, Option.bind_some]
    exact hback
  | _ =>
    simp only [packed, ofPacked?, htype, Option.bind_eq_bind, Option.bind_some]
    simp only [type, fieldNames] at hfields ⊢
    simp only [hfields, Option.bind_some]
    exact hback

theorem decode?_encode_append {p : Payload} (h : p.Writable) (rest : List UInt8) :
    decode? (p.encode ++ rest) = some p := by
  have hread : Packed.read? depthLimit (p.encode ++ rest) = some (p.packed, rest) :=
    readsBack h 1022 rest
  rw [decode?, hread]
  exact ofPacked?_packed p

/-- **The bytes of a payload say where they end.** Whatever follows them, they are read as the
payload; no payload's bytes are the front of another's, nor those of another. -/
theorem decodes_alone {p : Payload} (h : p.Writable) :
    (∀ rest, decode? (p.encode ++ rest) = some p) ∧
      ∀ q : Payload, q.Writable → p ≠ q →
        p.encode ≠ q.encode ∧ ¬ p.encode <+: q.encode ∧ ¬ q.encode <+: p.encode := by
  refine ⟨decode?_encode_append h, fun q hq hne => ?_⟩
  have hfront {a b : Payload} (ha : a.Writable) (hb : b.Writable) (hab : a.encode <+: b.encode) :
      a = b := by
    obtain ⟨rest, hrest⟩ := hab
    have hread := decode?_encode_append hb []
    rw [List.append_nil, ← hrest, decode?_encode_append ha] at hread
    exact Option.some.inj hread
  refine ⟨fun heq => hne (hfront h hq (heq ▸ List.prefix_rfl)), fun hpq => hne (hfront h hq hpq),
    fun hqp => hne (hfront hq h hqp).symm⟩

/-- A change to a plan whose name needs the second header, with a byte behind it, beside one that
differs in the last field only. -/
theorem decodes_alone_sample :
    decode? ((change ⟨"a-plan-with-a-name-of-35-characters", "trial", "DEFAULT"⟩).encode ++
        [0xc0]) =
        some (.change ⟨"a-plan-with-a-name-of-35-characters", "trial", "DEFAULT"⟩) ∧
      ¬ (change ⟨"a-plan-with-a-name-of-35-characters", "trial", ""⟩).encode <+:
        (change ⟨"a-plan-with-a-name-of-35-characters", "trial", "DEFAULT"⟩).encode := by
  have hlong : (change ⟨"a-plan-with-a-name-of-35-characters", "trial", "DEFAULT"⟩).Writable := by
    decide +kernel
  have hshort : (change ⟨"a-plan-with-a-name-of-35-characters", "trial", ""⟩).Writable := by
    decide +kernel
  exact ⟨(decodes_alone hlong).1 [0xc0],
    ((decodes_alone hlong).2 _ hshort (by decide)).2.2⟩

end Payload

end Tenure
