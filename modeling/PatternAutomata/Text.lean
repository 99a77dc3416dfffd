/-!
Text. Numerals in decimal and in hexadecimal come without leading zeros, and a digit reads back as
it was written. In double quotes, a character without a visible form of its own is written by
number. Byte offsets are those of the UTF-8 form, in which a text can be cut just at the boundaries
of characters.
-/

set_option autoImplicit false

/-! ### Numerals -/

namespace PatternAutomata.Digits

def decimal (n : Nat) : List Char := Nat.toDigits 10 n

def lowerHex (n : Nat) : List Char := Nat.toDigits 16 n

def upperHex (n : Nat) : List Char := (lowerHex n).map Char.toUpper

def decimalValue? (c : Char) : Option Nat :=
  if '0' ≤ c ∧ c ≤ '9' then some (c.toNat - '0'.toNat) else none

def hexValue? (c : Char) : Option Nat :=
  if '0' ≤ c ∧ c ≤ '9' then some (c.toNat - '0'.toNat)
  else if 'a' ≤ c ∧ c ≤ 'f' then some (c.toNat - 'a'.toNat + 10)
  else if 'A' ≤ c ∧ c ≤ 'F' then some (c.toNat - 'A'.toNat + 10)
  else none

def padded (width n : Nat) : String :=
  let ds := decimal n
  String.ofList (List.replicate (width - ds.length) '0' ++ ds)

theorem decimalValue?_digitChar {d : Nat} (h : d < 10) :
    decimalValue? (Nat.digitChar d) = some d :=
  (by decide : ∀ e : Fin 10, decimalValue? (Nat.digitChar e) = some e.val) ⟨d, h⟩

theorem upperValue?_digitChar {d : Nat} (h : d < 16) :
    hexValue? (Nat.digitChar d).toUpper = some d :=
  (by decide : ∀ e : Fin 16, hexValue? (Nat.digitChar e).toUpper = some e.val) ⟨d, h⟩

end PatternAutomata.Digits

/-! ### Quotes -/

namespace PatternAutomata.Quoted

/-- Ranges of code points that are written by number: controls, blanks other than the space,
invisible format characters, combining marks, private use, and codes that are no characters. -/
def hidden : List (Nat × Nat) :=
  [(0x00, 0x1F), (0x7F, 0xA0), (0xAD, 0xAD), (0x300, 0x36F), (0x1680, 0x1680), (0x2000, 0x200F),
    (0x2028, 0x202F), (0x205F, 0x206F), (0x3000, 0x3000), (0xE000, 0xF8FF), (0xFE00, 0xFE0F),
    (0xFEFF, 0xFEFF), (0xFFF0, 0xFFFB), (0xFFFE, 0xFFFF), (0xE0000, 0x10FFFF)]

def isHidden (c : Char) : Bool := hidden.any fun (a, b) => a ≤ c.toNat && c.toNat ≤ b

def encodeChar (c : Char) : List Char :=
  if c = '"' then ['\\', '"']
  else if c = '\\' then ['\\', '\\']
  else if c = '\t' then ['\\', 't']
  else if c = '\r' then ['\\', 'r']
  else if c = '\n' then ['\\', 'n']
  else if c = '\x00' then ['\\', '0']
  else if isHidden c then ['\\', 'u', '\x7b'] ++ Digits.lowerHex c.toNat ++ ['\x7d']
  else [c]

def encode (cs : List Char) : List Char := '"' :: cs.flatMap encodeChar ++ ['"']

def text (s : String) : String := String.ofList (encode s.toList)

end PatternAutomata.Quoted

/-! ### Offsets -/

namespace PatternAutomata.Offset

def byteLength : List Char → Nat
  | [] => 0
  | c :: cs => c.utf8Size + byteLength cs

/-- Cuts after `n` bytes, if that is not inside of a character. `taken` is what comes before, in
reverse. -/
def cutFrom? : (n : Nat) → (taken : List Char) → List Char → Option (List Char × List Char)
  | 0, taken, rest => some (taken.reverse, rest)
  | _ + 1, _, [] => none
  | n + 1, taken, c :: cs =>
    if c.utf8Size ≤ n + 1 then cutFrom? (n + 1 - c.utf8Size) (c :: taken) cs else none

def cut? (n : Nat) (cs : List Char) : Option (List Char × List Char) := cutFrom? n [] cs

theorem cutFrom?_eq_some {n : Nat} {taken cs before rest : List Char}
    (h : cutFrom? n taken cs = some (before, rest)) :
    ∃ middle, before = taken.reverse ++ middle ∧ cs = middle ++ rest ∧ byteLength middle = n := by
  induction cs generalizing n taken with
  | nil =>
    cases n with
    | zero =>
      obtain ⟨rfl, rfl⟩ := Prod.mk.inj (Option.some.inj h)
      exact ⟨[], by simp, rfl, rfl⟩
    | succ n => cases h
  | cons c cs ih =>
    cases n with
    | zero =>
      obtain ⟨rfl, rfl⟩ := Prod.mk.inj (Option.some.inj h)
      exact ⟨[], by simp, rfl, rfl⟩
    | succ n =>
      unfold cutFrom? at h
      split at h
      · rename_i hc
        obtain ⟨middle, h1, h2, h3⟩ := ih h
        refine ⟨c :: middle, by simp [h1], by simp [h2], ?_⟩
        rw [byteLength]
        omega
      · cases h

/-- A character of the text starts after `n` bytes, or the text ends there. -/
def Boundary (cs : List Char) (n : Nat) : Prop :=
  ∃ before after, cs = before ++ after ∧ byteLength before = n

/-- `piece` is what a text holds between two boundaries of its characters. -/
def Between (cs : List Char) (start stop : Nat) (piece : List Char) : Prop :=
  ∃ before after, cs = before ++ (piece ++ after) ∧ byteLength before = start ∧
    start + byteLength piece = stop

theorem cut?_eq_some {n : Nat} {cs before rest : List Char} (h : cut? n cs = some (before, rest)) :
    cs = before ++ rest ∧ byteLength before = n := by
  obtain ⟨middle, h1, h2, h3⟩ := cutFrom?_eq_some h
  obtain rfl : before = middle := by simpa using h1
  exact ⟨h2, h3⟩

theorem cutFrom?_append (taken xs ys : List Char) :
    cutFrom? (byteLength xs) taken (xs ++ ys) = some (taken.reverse ++ xs, ys) := by
  induction xs generalizing taken with
  | nil =>
    rw [List.append_nil]
    cases ys <;> rfl
  | cons c xs ih =>
    have hpos := c.utf8Size_pos
    obtain ⟨n, hn⟩ : ∃ n, byteLength (c :: xs) = n + 1 :=
      Nat.exists_eq_succ_of_ne_zero (by rw [byteLength]; omega)
    have hsum : byteLength (c :: xs) = c.utf8Size + byteLength xs := rfl
    rw [hn, List.cons_append, cutFrom?, if_pos (by omega),
      show n + 1 - c.utf8Size = byteLength xs by omega, ih]
    simp only [List.reverse_cons, List.append_assoc, List.singleton_append]

theorem cut?_append (xs ys : List Char) : cut? (byteLength xs) (xs ++ ys) = some (xs, ys) :=
  cutFrom?_append [] xs ys

theorem byteLength_append (xs ys : List Char) :
    byteLength (xs ++ ys) = byteLength xs + byteLength ys := by
  induction xs with
  | nil => exact (Nat.zero_add _).symm
  | cons c xs ih => rw [List.cons_append, byteLength, byteLength, ih, Nat.add_assoc]

theorem byteLength_ofList (cs : List Char) : byteLength cs = (String.ofList cs).utf8ByteSize := by
  induction cs with
  | nil => rfl
  | cons c cs ih =>
    rw [byteLength, ih, String.ofList_cons, String.utf8ByteSize_append,
      String.utf8ByteSize_singleton]

theorem byteLength_toList (text : String) : byteLength text.toList = text.utf8ByteSize := by
  rw [byteLength_ofList, String.ofList_toList]

theorem append_inj {xs ys us vs : List Char} (h : xs ++ ys = us ++ vs)
    (hlength : byteLength xs = byteLength us) : xs = us ∧ ys = vs := by
  have hcut := cut?_append xs ys
  rw [h, hlength, cut?_append] at hcut
  obtain ⟨rfl, rfl⟩ := Prod.mk.inj (Option.some.inj hcut)
  exact ⟨rfl, rfl⟩

section

variable {cs xs ys : List Char} {start middle stop : Nat}

theorem Between.split (h : Between cs start stop (xs ++ ys)) :
    Between cs start (start + byteLength xs) xs ∧ Between cs (start + byteLength xs) stop ys := by
  obtain ⟨before, after, rfl, rfl, rfl⟩ := h
  refine ⟨⟨before, ys ++ after, ?_, rfl, rfl⟩, before ++ xs, after, ?_, ?_, ?_⟩
  · rw [List.append_assoc]
  · simp only [List.append_assoc]
  · rw [byteLength_append]
  · rw [byteLength_append, Nat.add_assoc]

/-- What lies between two boundaries is put together from what lies to either side of a third. -/
theorem Between.join (hx : Between cs start middle xs) (hy : Between cs middle stop ys) :
    Between cs start stop (xs ++ ys) := by
  obtain ⟨before, after, rfl, rfl, rfl⟩ := hx
  obtain ⟨before', after', hcs, hmiddle, rfl⟩ := hy
  rw [← List.append_assoc] at hcs
  obtain ⟨-, rfl⟩ := append_inj hcs (by rw [byteLength_append, hmiddle])
  refine ⟨before, after', ?_, rfl, ?_⟩
  · rw [List.append_assoc]
  · rw [byteLength_append, Nat.add_assoc]

theorem Between.unique (hx : Between cs start stop xs) (hy : Between cs start stop ys) :
    xs = ys := by
  obtain ⟨before, after, rfl, rfl, rfl⟩ := hx
  obtain ⟨before', after', hcs, hbefore, hlength⟩ := hy
  obtain ⟨-, hrest⟩ := append_inj hcs hbefore.symm
  exact (append_inj hrest (by omega)).1

theorem Boundary.between (hstart : Boundary cs start) (hstop : Boundary cs stop)
    (hle : start ≤ stop) : ∃ piece, Between cs start stop piece := by
  obtain ⟨before, after, rfl, rfl⟩ := hstart
  obtain ⟨before', after', hcs, rfl⟩ := hstop
  rcases List.append_eq_append_iff.1 hcs with ⟨piece, rfl, rfl⟩ | ⟨piece, rfl, rfl⟩
  · exact ⟨piece, before, after', rfl, rfl, (byteLength_append before piece).symm⟩
  · -- What is taken back has no bytes.
    rw [byteLength_append] at hle
    refine ⟨[], before' ++ piece, after, rfl, rfl, ?_⟩
    rw [byteLength_append, byteLength]
    omega

theorem between_all (text : String) : Between text.toList 0 text.utf8ByteSize text.toList :=
  ⟨[], [], (List.append_nil _).symm, rfl, by rw [byteLength_toList, Nat.zero_add]⟩

end

end PatternAutomata.Offset
