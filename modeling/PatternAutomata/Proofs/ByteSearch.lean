import PatternAutomata.Matcher
import Mathlib.Data.List.TakeWhile
import Mathlib.Data.Nat.Notation

/-!
Searching the bytes of a text for exits. Exits are ASCII, and no such byte is inside of the written
form of a character, so a search for the first of them passes over just the characters that hold
none. All that is asked of the search is that it finds the first byte that it looks for.
-/

set_option autoImplicit false

namespace PatternAutomata

/-! ### Searches -/

/-- A search for one byte, one for the first of two, and one for the first of three. -/
structure ByteSearch where
  one : UInt8 → List UInt8 → Option ℕ
  two : UInt8 → UInt8 → List UInt8 → Option ℕ
  three : UInt8 → UInt8 → UInt8 → List UInt8 → Option ℕ

/-- What is found is the offset of the first byte that is one of the needles. -/
def IsFirst (needles bytes : List UInt8) : Option ℕ → Prop
  | none => ∀ b ∈ bytes, b ∉ needles
  | some i => (∃ b ∈ needles, bytes[i]? = some b) ∧ ∀ b ∈ bytes.take i, b ∉ needles

namespace ByteSearch

structure Exact (search : ByteSearch) : Prop where
  one : ∀ a bytes, IsFirst [a] bytes (search.one a bytes)
  two : ∀ a b bytes, IsFirst [a, b] bytes (search.two a b bytes)
  three : ∀ a b c bytes, IsFirst [a, b, c] bytes (search.three a b c bytes)

def find (search : ByteSearch) : (needles bytes : List UInt8) → Except Fault (Option ℕ)
  | [a], bytes => .ok (search.one a bytes)
  | [a, b], bytes => .ok (search.two a b bytes)
  | [a, b, c], bytes => .ok (search.three a b c bytes)
  | _, _ => .error .outOfRange

def linear : ByteSearch where
  one a := List.findIdx? fun x => [a].contains x
  two a b := List.findIdx? fun x => [a, b].contains x
  three a b c := List.findIdx? fun x => [a, b, c].contains x

theorem isFirst_findIdx? (needles bytes : List UInt8) :
    IsFirst needles bytes (bytes.findIdx? (needles.contains ·)) := by
  cases h : bytes.findIdx? (needles.contains ·) with
  | none =>
    intro b hb hneedle
    have hnot := List.findIdx?_eq_none_iff.1 h b hb
    rw [List.contains_iff_mem.2 hneedle] at hnot
    cases hnot
  | some i =>
    obtain ⟨hi, hfound, hbefore⟩ := List.findIdx?_eq_some_iff_getElem.1 h
    refine ⟨⟨_, List.contains_iff_mem.1 hfound, List.getElem?_eq_getElem hi⟩,
      fun b hb hneedle => ?_⟩
    obtain ⟨j, hj, rfl⟩ := List.mem_take_iff_getElem.1 hb
    exact hbefore j (by omega) (List.contains_iff_mem.2 hneedle)

theorem linear_exact : linear.Exact where
  one a := isFirst_findIdx? [a]
  two a b := isFirst_findIdx? [a, b]
  three a b c := isFirst_findIdx? [a, b, c]

section

variable {search : ByteSearch} (hsearch : search.Exact) {needles : List UInt8}

include hsearch

theorem Exact.exists_find (hsome : needles ≠ []) (hfew : needles.length ≤ StateCode.maxExits)
    (bytes : List UInt8) :
    ∃ found, search.find needles bytes = .ok found ∧ IsFirst needles bytes found := by
  match needles with
  | [] => exact absurd rfl hsome
  | [a] => exact ⟨_, rfl, hsearch.one a bytes⟩
  | [a, b] => exact ⟨_, rfl, hsearch.two a b bytes⟩
  | [a, b, c] => exact ⟨_, rfl, hsearch.three a b c bytes⟩
  | _ :: _ :: _ :: _ :: _ =>
    simp only [List.length_cons, StateCode.maxExits] at hfew
    omega

end

end ByteSearch

theorem IsFirst.getD_eq {needles bytes : List UInt8} {found : Option ℕ}
    (h : IsFirst needles bytes found) :
    found.getD bytes.length = (bytes.takeWhile (!needles.contains ·)).length := by
  have hnot : ∀ {b}, b ∉ needles → (!needles.contains b) = true := fun hb =>
    congrArg not (Bool.eq_false_iff.2 (mt List.contains_iff_mem.1 hb))
  cases found with
  | none =>
    rw [Option.getD_none, List.takeWhile_eq_self_iff.2 fun b hb => hnot (h b hb)]
  | some i =>
    obtain ⟨⟨b, hb, hi⟩, hbefore⟩ := h
    obtain ⟨hlt, hi⟩ := List.getElem?_eq_some_iff.1 hi
    rw [Option.getD_some, ← List.take_append_drop i bytes,
      List.takeWhile_append_of_pos fun b hb => hnot (hbefore b hb), List.drop_eq_getElem_cons hlt,
      hi, List.takeWhile_cons_of_neg (by rw [List.contains_iff_mem.2 hb]; decide), List.append_nil,
      List.length_take, min_eq_left hlt.le]

/-! ### Feeding by searches -/

def utf8 (cs : List Char) : List UInt8 := cs.flatMap String.utf8EncodeChar

/-- How many bytes come before the first exit; none are passed over where there are no exits. -/
def StateCode.bytesToExit (search : ByteSearch) (s : StateCode) (bytes : List UInt8) :
    Except Fault ℕ :=
  if s.exits.isEmpty then .ok 0 else (search.find s.exits bytes).map (·.getD bytes.length)

/-- What a matcher looks up in a program. -/
structure Program.Access where
  bytesToExit : (id : ℕ) → List UInt8 → Except Fault ℕ
  act : (id : ℕ) → ℤ → Except Fault Action
  isTerminal : (id : ℕ) → Except Fault Bool

def Program.access (search : ByteSearch) (p : Program) : Program.Access where
  bytesToExit id bytes :=
    match p.states[id]? with
    | some s => s.bytesToExit search bytes
    | none => .ok 0
  act id point := .ok (p.act id point)
  isTerminal id := .ok (p.isTerminal id)

def Program.AsciiExits (p : Program) : Prop :=
  ∀ (id : ℕ) (s : StateCode), p.states[id]? = some s → ∀ b ∈ s.exits, b ≤ 0x7F

namespace Matcher

/-- Consumes characters as `consume` does, but goes on at the place that a search for the first
exit byte finds. A place inside of a character would be a fault. -/
def consumeBy (access : Program.Access) (stopReluctantly : Bool) (id : ℕ) (domain : Option ℕ)
    (offset : ℕ) (cs : List Char) : Except Fault Matcher := do
  let bytes ← access.bytesToExit id (utf8 cs)
  match _h : Offset.cut? bytes cs with
  | none => .error .outOfRange
  | some (skipped, []) => return ⟨some id, domain, offset + Offset.byteLength skipped⟩
  | some (skipped, c :: rest) =>
    let found := offset + Offset.byteLength skipped
    match ← access.act id (Point.ofChar c) with
    | .fail => return ⟨none, domain, found⟩
    | .goto next update reluctant =>
      if reluctant && stopReluctantly && (← access.isTerminal id) then
        return ⟨some id, domain, found⟩
      else consumeBy access stopReluctantly next (update.apply domain) (found + c.utf8Size) rest
termination_by cs.length
decreasing_by
  rw [(Offset.cut?_eq_some _h).1, List.length_append, List.length_cons]
  omega

def consumeBySearch (search : ByteSearch) (p : Program) (stopReluctantly : Bool) (id : ℕ)
    (domain : Option ℕ) (offset : ℕ) (cs : List Char) : Except Fault Matcher :=
  consumeBy (p.access search) stopReluctantly id domain offset cs

def feedBy (access : Program.Access) (m : Matcher) (text : String) (start stop : ℕ)
    (stopReluctantly : Bool) : Except Fault Matcher := do
  let piece ← slice text.toList start stop
  match m.state with
  | none => return { m with index := start }
  | some id => consumeBy access stopReluctantly id m.domain start piece

def feedBySearch (search : ByteSearch) (p : Program) (m : Matcher) (text : String)
    (start stop : ℕ) (stopReluctantly : Bool) : Except Fault Matcher :=
  m.feedBy (p.access search) text start stop stopReluctantly

end Matcher

/-! ### What a search passes over -/

theorem length_utf8 (cs : List Char) : (utf8 cs).length = Offset.byteLength cs := by
  induction cs with
  | nil => rfl
  | cons c cs ih => rw [utf8, List.flatMap_cons, List.length_append, ← utf8, ih,
      String.length_utf8EncodeChar, Offset.byteLength]

theorem isUTF8FirstByte_of_ascii {b : UInt8} (h : b ≤ 0x7F) : b.IsUTF8FirstByte := by
  have hlow : ∀ n : Fin 128, UInt8.ofNat n &&& 0x80 = 0 := by decide
  have hb := hlow ⟨b.toNat, Nat.lt_succ_of_le (UInt8.le_iff_toNat_le.1 h)⟩
  rw [UInt8.ofNat_toNat] at hb
  exact .inl hb

theorem head?_utf8EncodeChar {c : Char} {b : UInt8} (hb : b ≤ 0x7F)
    (h : b ∈ String.utf8EncodeChar c) : (String.utf8EncodeChar c).head? = some b := by
  obtain ⟨i, hi, rfl⟩ := List.mem_iff_getElem.1 h
  obtain rfl := UInt8.isUTF8FirstByte_getElem_utf8EncodeChar.1 (isUTF8FirstByte_of_ascii hb)
  rw [List.head?_eq_getElem?, List.getElem?_eq_getElem hi]

section

variable {s : StateCode} (hascii : ∀ b ∈ s.exits, b ≤ 0x7F)

include hascii

theorem takeWhile_utf8 (hne : s.exits.isEmpty = false) (cs : List Char) :
    (utf8 cs).takeWhile (!s.exits.contains ·) = utf8 (cs.takeWhile s.skips) := by
  induction cs with
  | nil => rfl
  | cons c cs ih =>
    rw [utf8, List.flatMap_cons, ← utf8]
    by_cases hskip : s.skips c = true
    · have hall : ∀ b ∈ String.utf8EncodeChar c, (!s.exits.contains b) = true := by
        rw [StateCode.skips, Bool.and_eq_true] at hskip
        exact List.all_eq_true.1 hskip.2
      rw [List.takeWhile_append_of_pos hall, ih, List.takeWhile_cons_of_pos hskip, utf8, utf8,
        List.flatMap_cons]
    · -- Some byte is an exit, and then it is the first.
      obtain ⟨b, hb, hexit⟩ : ∃ b ∈ String.utf8EncodeChar c, s.exits.contains b = true := by
        simpa [StateCode.skips, hne] using hskip
      have hhead := head?_utf8EncodeChar (hascii b (List.contains_iff_mem.1 hexit)) hb
      obtain ⟨bs, hbs⟩ := List.head?_eq_some_iff.1 hhead
      rw [List.takeWhile_cons_of_neg hskip, hbs, List.cons_append,
        List.takeWhile_cons_of_neg (by rw [hexit]; decide)]
      rfl

/-- The search ends between two characters, behind those that are skipped. -/
theorem bytesToExit_eq {search : ByteSearch} (hsearch : search.Exact) (cs : List Char) :
    s.bytesToExit search (utf8 cs) = .ok (Offset.byteLength (cs.takeWhile s.skips)) := by
  rw [StateCode.bytesToExit]
  split
  case isTrue hempty =>
    have hskips : s.skips = fun _ => false := by
      funext c
      rw [StateCode.skips, hempty]
      rfl
    rw [hskips]
    cases cs <;> rfl
  case isFalse hne =>
    have hsome : s.exits ≠ [] := fun hnil => hne (List.isEmpty_iff.2 hnil)
    obtain ⟨found, hfind, hfirst⟩ := hsearch.exists_find hsome s.few (utf8 cs)
    rw [hfind, Except.map, hfirst.getD_eq,
      takeWhile_utf8 hascii (Bool.eq_false_iff.2 hne), length_utf8]

end

theorem Program.AsciiExits.bytesToExit {p : Program} (h : p.AsciiExits) {search : ByteSearch}
    (hsearch : search.Exact) (id : ℕ) (cs : List Char) :
    (p.access search).bytesToExit id (utf8 cs) =
      .ok (Offset.byteLength (cs.takeWhile (p.skips id))) := by
  dsimp only [access]
  cases hs : p.states[id]? with
  | none =>
    have hskips : p.skips id = fun _ => false := by
      funext c
      rw [Program.skips, hs, Option.any_none]
    rw [hskips]
    cases cs <;> rfl
  | some s =>
    have hskips : p.skips id = s.skips := by
      funext c
      rw [Program.skips, hs, Option.any_some]
    rw [hskips]
    exact bytesToExit_eq (h id s hs) hsearch cs

namespace Matcher

theorem consume_dropWhile (p : Program) (stopReluctantly : Bool) (id : ℕ) (domain : Option ℕ)
    (offset : ℕ) (cs : List Char) :
    consume p stopReluctantly id domain offset cs =
      consume p stopReluctantly id domain
        (offset + Offset.byteLength (cs.takeWhile (p.skips id))) (cs.dropWhile (p.skips id)) := by
  induction cs generalizing offset with
  | nil => rfl
  | cons c cs ih =>
    by_cases hskip : p.skips id c = true
    · rw [consume, if_pos hskip, ih, List.takeWhile_cons_of_pos hskip,
        List.dropWhile_cons_of_pos hskip, Offset.byteLength, Nat.add_assoc]
    · rw [List.takeWhile_cons_of_neg hskip, List.dropWhile_cons_of_neg hskip]
      rfl

section

variable {search : ByteSearch} (hsearch : search.Exact) {p : Program} (hp : p.AsciiExits)

include hsearch hp

/-- Searching for exit bytes comes to what skipping one character at a time does. -/
theorem consumeBySearch_eq (stopReluctantly : Bool) (id : ℕ) (domain : Option ℕ) (offset : ℕ)
    (cs : List Char) : consumeBySearch search p stopReluctantly id domain offset cs =
      .ok (consume p stopReluctantly id domain offset cs) := by
  induction hn : cs.length using Nat.strong_induction_on generalizing id domain offset cs with
  | h n ih =>
    have hsplit := List.takeWhile_append_dropWhile (p := p.skips id) (l := cs)
    have hcut : Offset.cut? (Offset.byteLength (cs.takeWhile (p.skips id))) cs =
        some (cs.takeWhile (p.skips id), cs.dropWhile (p.skips id)) := by
      have hcut := Offset.cut?_append (cs.takeWhile (p.skips id)) (cs.dropWhile (p.skips id))
      rwa [hsplit] at hcut
    rw [consumeBySearch, consumeBy, bind_of_ok (hp.bytesToExit hsearch id cs), consume_dropWhile]
    split
    case h_1 hnone =>
      rw [hcut] at hnone
      cases hnone
    case h_2 skipped hsome =>
      obtain ⟨htaken, hrest⟩ := Prod.mk.inj (Option.some.inj (hcut.symm.trans hsome))
      rw [htaken, hrest, consume]
      rfl
    case h_3 skipped c rest hsome =>
      obtain ⟨htaken, hrest⟩ := Prod.mk.inj (Option.some.inj (hcut.symm.trans hsome))
      have hstop : ¬ p.skips id c = true := by
        have hhead := List.head?_dropWhile_not (p.skips id) cs
        rw [hrest] at hhead
        simpa using hhead
      have hlt : rest.length < n := by
        rw [← hn, ← hsplit, hrest, List.length_append, List.length_cons]
        omega
      rw [htaken, hrest, consume, if_neg hstop]
      dsimp only [Program.access]
      rw [bind_of_ok rfl]
      cases p.act id (Point.ofChar c) with
      | fail => rfl
      | goto next update reluctant =>
        dsimp only
        rw [bind_of_ok rfl]
        split
        case isTrue => rfl
        case isFalse => exact ih rest.length hlt next _ _ rest rfl

theorem feedBySearch_eq (m : Matcher) (text : String) (start stop : ℕ) (stopReluctantly : Bool) :
    m.feedBySearch search p text start stop stopReluctantly =
      m.feed p text start stop stopReluctantly := by
  rw [feedBySearch, feedBy, feed]
  cases slice text.toList start stop with
  | error e => rfl
  | ok piece =>
    cases hstate : m.state with
    | none =>
      rw [Except.map, feedChars, hstate]
      rfl
    | some id =>
      rw [Except.map, feedChars, hstate]
      exact consumeBySearch_eq hsearch hp stopReluctantly id m.domain start piece

end

end Matcher

end PatternAutomata
