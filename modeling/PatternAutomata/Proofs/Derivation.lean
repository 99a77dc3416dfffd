import PatternAutomata.Proofs.Description

/-!
What is read is a pattern of the grammar: each step keeps the description of a state, in classes and
escapes too (`Described.step`), and a state in which the pattern may end describes all of it.
-/

set_option autoImplicit false

namespace PatternAutomata.Parser

open Grammar

variable {limit : ℕ} {s t : State} {w v u : List Char} {c : Char}

section Classes

variable {depth top start : ℕ} {inner : OpenClass} {outer : List OpenClass} {first : Bool}

theorem place_lower (h : Continues depth first c u) {l : List Char} {d : Char}
    (hl : LowerChar first l d) (hc : l.head? = some c) (start : ℕ) :
    Place depth (.lower d start) (u ++ l) := by
  have hne : ∀ rest, (l ++ rest).head? = some c := by
    intro rest
    cases l with
    | nil => cases hc
    | cons _ _ => exact hc
  refine ⟨fun rest m hr hb => ?_, fun v e rest m hv hle hb => ?_⟩
  · rw [List.append_assoc]
    exact h _ _ (hne rest) (.single hl hr hb)
  · rw [List.append_assoc]
    exact h _ _ (hne _) (.range hl hv hle hb)

theorem place_hyphen {lower : Char} (h : Place depth (.lower lower start) u) :
    Place depth (.hyphen lower start) (u ++ ['-']) := by
  obtain ⟨hitem, hrange⟩ := h
  constructor
  · rw [List.append_assoc]
    refine hitem ['-', ']'] _ ?_ (.single (.plain (by decide)) ?_ .close)
    · rintro c r ⟨⟩
      rfl
    · rintro c r ⟨⟩
  · intro v d rest m hv hle hb
    rw [List.append_assoc]
    exact hrange v d rest m hv hle hb

theorem head?_isClass {members : ℤ → Prop} (h : IsClass depth u members) (rest : List Char) :
    (u ++ rest).head? = some '[' := by
  obtain ⟨hh, -, -⟩ := h
  cases hh <;> rfl

theorem Described.closeClass (h : Context limit s depth w)
    (hu : InClass depth outer (fun d u => ∃ m, IsClass (d + 1) (u ++ [c]) m) u) :
    Described limit (Parser.closeClass s inner outer) (w ++ u ++ [c]) := by
  cases hu with
  | @mk d a b ha hb =>
    obtain ⟨m, hb⟩ := hb
    cases ha with
    | nil =>
      have hleave : Context limit s.leave _ w := h.resume rfl rfl rfl
      exact .complete (hleave.push (.bracketed hb) _) rfl
    | @cons _ o os a b' first ha hb' =>
      refine .grow h rfl rfl rfl ?_
      rw [List.append_assoc, List.append_assoc]
      refine .mk ha fun c' rest m' _ hrest => ?_
      rw [List.append_assoc]
      exact hb' _ _ (head?_isClass hb rest) (.nested hb hrest)

theorem Described.stepItem (h : Context limit s depth w)
    (hu : InClass depth outer (fun d u => Continues d first c u) u)
    (hs : s.depth = s.groups.length + 1 + outer.length)
    (ht : Parser.stepItem limit s inner outer first c = .ok t) :
    Described limit t (w ++ u ++ [c]) := by
  unfold Parser.stepItem at ht
  split at ht
  · rename_i hc
    obtain ⟨rfl, rfl⟩ := hc
    cases ht
    apply Described.closeClass h
    cases hu with
    | mk ha hb => exact .mk ha (hb _ _ rfl .close)
  · rename_i hbracket
    split at ht
    · rename_i hc
      obtain ⟨hlimit, rfl⟩ := enter_eq_ok ht
      refine .grow h rfl rfl rfl ?_
      cases hu with
      | @mk d a b ha hb =>
        have hlength := h.length_add
        have hclasses := ha.length_add
        obtain ⟨d, rfl⟩ : ∃ e, d = e + 1 := ⟨d - 1, by omega⟩
        exact .mk (.cons ha (hc ▸ hb)) (congrArg (fun c => [c]) hc)
    · rename_i hopen
      split at ht
      · rename_i hc
        cases ht
        subst hc
        refine .grow h rfl rfl rfl ⟨u, ?_, rfl⟩
        cases hu with
        | mk ha hb => exact .mk ha ⟨first, hb⟩
      · rename_i hescape
        cases ht
        refine .grow h rfl rfl rfl (hu.extend fun d u hu => place_lower hu ?_ rfl _)
        by_cases hc : c = ']'
        · subst hc
          exact .bracket (by simpa using hbracket)
        · exact .plain (by simp [hc, hopen, hescape])

theorem closeRange_eq_ok {lower upper : Char}
    (h : closeRange s inner outer lower start upper = .ok t) :
    lower ≤ upper ∧
      t = s.inMode (.inClass (inner.unite (.ofSpan (.ofChars lower upper))) outer .items) := by
  unfold closeRange at h
  split at h
  · cases h
  · rename_i hle
    cases h
    exact ⟨Char.not_lt.1 hle, rfl⟩

theorem Described.closeRange {lower upper : Char} (h : Context limit s depth w)
    (hu : Site depth (.upper inner outer lower start) u) (hv : UpperChar v upper)
    (ht : Parser.closeRange s inner outer lower start upper = .ok t) :
    Described limit t (w ++ (u ++ v)) := by
  obtain ⟨hle, rfl⟩ := closeRange_eq_ok ht
  refine .resume h rfl rfl rfl (hu.extend fun d u hu => ?_)
  intro c rest m _ hb
  rw [List.append_assoc]
  exact hu v upper rest m hv hle hb

theorem Described.stepClass {place : ClassPlace} (h : Context limit s depth w)
    (hu : InClass depth outer (fun d => Place d place) u)
    (hs : s.depth = s.groups.length + 1 + outer.length)
    (ht : Parser.stepClass limit s inner outer place c = .ok t) :
    Described limit t (w ++ u ++ [c]) := by
  unfold Parser.stepClass at ht
  split at ht
  · split at ht
    · rename_i hc
      cases ht
      refine .grow h rfl rfl rfl (hu.extend fun d u hu => ?_)
      rw [show u = ['['] from hu, hc]
      rfl
    · rename_i hc
      refine .stepItem h ?_ hs ht
      cases hu with
      | mk ha hb =>
        obtain rfl := hb
        refine .mk ha fun rest m hrest hb => ⟨_, .mk .plain (fun _ => ?_) hb⟩
        rw [hrest]
        simpa using hc
  · refine .stepItem h ?_ hs ht
    cases hu with
    | mk ha hb =>
      obtain rfl := hb
      exact .mk ha fun rest m hrest hb => ⟨_, .mk .negated (by simp) hb⟩
  · refine .stepItem h ?_ hs ht
    cases hu with
    | mk ha hb => exact .mk ha (hb c)
  · rename_i lower start
    split at ht
    · rename_i hc
      cases ht
      subst hc
      exact .grow h rfl rfl rfl (hu.extend fun d u hu => place_hyphen hu)
    · rename_i hc
      refine .stepItem h ?_ hs ht
      cases hu with
      | mk ha hb =>
        refine .mk ha fun rest m hrest hb' => hb.1 rest m ?_ hb'
        rintro d r rfl
        exact absurd (Option.some.inj hrest).symm hc
  · rename_i lower start
    split at ht
    · rename_i hc
      cases ht
      subst hc
      refine .closeClass h ?_
      cases hu with
      | mk ha hb => exact .mk ha hb.1
    · rename_i hbracket
      have hsite : Site depth (.upper inner outer lower start) u := by
        cases hu with
        | mk ha hb => exact .mk ha hb.2
      split at ht
      · rename_i hc
        cases ht
        subst hc
        exact .grow h rfl rfl rfl ⟨u, hsite, rfl⟩
      · rename_i hescape
        rw [List.append_assoc]
        exact .closeRange h hsite (.plain (by simp [hbracket, hescape])) ht

end Classes

section Escapes

variable {depth start missing value length : ℕ} {site : EscapeSite} {ds : List Char}

theorem Described.deliverChar {d : Char} (h : Context limit s depth w) (hu : Site depth site u)
    (hv : CharEscape v d) (ht : Parser.deliverChar s start site d = .ok t) :
    Described limit t (w ++ (u ++ v)) := by
  cases site with
  | term =>
    cases ht
    obtain rfl := hu
    exact .whole (h.push (.escape hv) _) rfl
  | item inner outer =>
    cases ht
    refine .resume h rfl rfl rfl (hu.extend fun d u hu => ?_)
    obtain ⟨first, hu⟩ := hu
    exact place_lower hu (.escape hv) (by cases hv <;> rfl) start
  | upper inner outer lower itemStart => exact .closeRange h hu (.escape hv) ht

theorem Described.deliverClass {named : PointSet} {members : ℤ → Prop}
    (h : Context limit s depth w) (hu : Site depth site u) (hv : ClassEscape v members)
    (ht : Parser.deliverClass s site named = .ok t) : Described limit t (w ++ (u ++ v)) := by
  cases site with
  | term =>
    cases ht
    obtain rfl := hu
    exact .whole (h.push (.classEscape hv) _) rfl
  | item inner outer =>
    cases ht
    refine .resume h rfl rfl rfl (hu.extend fun d u hu => ?_)
    obtain ⟨first, hu⟩ := hu
    intro c rest m _ hb
    rw [List.append_assoc]
    exact hu _ _ (by cases hv <;> rfl) (.escape hv hb)
  | upper inner outer lower itemStart => cases ht

theorem Described.deliverCode (h : Context limit s depth w) (hu : Site depth site u)
    (hv : ∀ d : Char, value = d.toNat → CharEscape v d)
    (ht : Parser.deliverCode s start site value = .ok t) : Described limit t (w ++ (u ++ v)) := by
  unfold Parser.deliverCode at ht
  split at ht
  · rename_i d hd
    have hvalue : (value : ℤ) = Point.ofChar d := (Point.ofChar_of_char? hd).symm
    exact .deliverChar h hu (hv d (Int.ofNat_inj.1 hvalue)) ht
  · cases ht

theorem charEscape_of_charEscape? {d : Char} (h : charEscape? c = some d) :
    CharEscape ['\\', c] d := by
  unfold charEscape? at h
  split at h
  · cases h
    exact .control (by decide)
  · cases h
    exact .control (by decide)
  · cases h
    exact .control (by decide)
  · cases h
    exact .control (by decide)
  · cases h
    exact .control (by decide)
  · cases h
    exact .control (by decide)
  · split at h
    · cases h
      exact .itself (by assumption)
    · cases h

theorem exists_classEscape {named : PointSet} (h : classEscape? c = some named) :
    ∃ members, ClassEscape ['\\', c] members := by
  unfold classEscape? at h
  split at h
  · exact ⟨_, .digit⟩
  · exact ⟨_, .notDigit⟩
  · exact ⟨_, .blank⟩
  · exact ⟨_, .notBlank⟩
  · exact ⟨_, .word⟩
  · exact ⟨_, .notWord⟩
  · cases h

theorem Described.stepEscape (h : Context limit s depth w) (hu : Site depth site u)
    (ht : Parser.stepEscape s start site c = .ok t) :
    Described limit t (w ++ (u ++ ['\\']) ++ [c]) := by
  unfold Parser.stepEscape at ht
  split at ht
  · rename_i hc
    cases ht
    subst hc
    refine .grow h rfl rfl rfl ⟨u, [], 'x', hu, .nil, by decide, by decide, ?_⟩
    rw [List.append_assoc]
    rfl
  · split at ht
    · rename_i hc
      cases ht
      subst hc
      refine .grow h rfl rfl rfl ⟨u, hu, ?_⟩
      rw [List.append_assoc]
      rfl
    · rw [List.append_assoc, List.append_assoc]
      split at ht
      · rename_i named _ hnamed
        obtain ⟨members, hm⟩ := exists_classEscape hnamed
        exact .deliverClass h hu hm ht
      · rename_i d _ hd
        exact .deliverChar h hu (charEscape_of_charEscape? hd) ht
      · cases ht

theorem charEscape_of_fixedLengths {l d : Char} (h : (l, ds.length) ∈ fixedLengths)
    (hd : IsHex ds d.toNat) : CharEscape ('\\' :: l :: ds) d := by
  simp only [fixedLengths, List.mem_cons, List.not_mem_nil, or_false, Prod.mk.injEq] at h
  rcases h with ⟨rfl, hl⟩ | ⟨rfl, hl⟩
  · exact .twoDigits hd hl
  · exact .fourDigits hd hl

theorem Described.stepHexFixed {l : Char} (h : Context limit s depth w) (hu : Site depth site u)
    (hds : IsHex ds value) (hm : 0 < missing) (hl : (l, ds.length + missing) ∈ fixedLengths)
    (ht : Parser.stepHexFixed s start site missing value c = .ok t) :
    Described limit t (w ++ (u ++ '\\' :: l :: ds) ++ [c]) := by
  unfold Parser.stepHexFixed at ht
  split at ht
  · cases ht
  · rename_i d hd
    have hsnoc : IsHex (ds ++ [c]) (value * 16 + d) := .snoc hds hd
    have hlength : (ds ++ [c]).length = ds.length + 1 := List.length_append
    dsimp only at ht
    split at ht
    · rename_i hlast
      rw [List.append_assoc, List.append_assoc]
      refine .deliverCode h hu (fun e he => ?_) ht
      have htotal : (l, (ds ++ [c]).length) ∈ fixedLengths := by
        rwa [hlength, show 1 = missing by omega]
      exact charEscape_of_fixedLengths htotal (he ▸ hsnoc)
    · rename_i hmore
      cases ht
      refine .grow h rfl rfl rfl ⟨u, ds ++ [c], l, hu, hsnoc, by omega, ?_, by simp⟩
      rwa [hlength, show ds.length + 1 + (missing - 1) = ds.length + missing by omega]

theorem Described.stepHexHead (h : Context limit s depth w) (hu : Site depth site u)
    (ht : Parser.stepHexHead s start site c = .ok t) :
    Described limit t (w ++ (u ++ ['\\', 'u']) ++ [c]) := by
  unfold Parser.stepHexHead at ht
  split at ht
  · rename_i hc
    cases ht
    subst hc
    exact .grow h rfl rfl rfl ⟨u, [], hu, .nil, rfl, by decide, by simp⟩
  · exact .stepHexFixed h hu .nil (by decide) (by decide) ht

theorem Described.stepHexBraced (h : Context limit s depth w) (hu : Site depth site u)
    (hds : IsHex ds value) (hl : ds.length ≤ 6)
    (ht : Parser.stepHexBraced s start site ds.length value c = .ok t) :
    Described limit t (w ++ (u ++ '\\' :: 'u' :: '\x7b' :: ds) ++ [c]) := by
  unfold Parser.stepHexBraced at ht
  split at ht
  · rename_i d hd
    split at ht
    · rename_i hlt
      cases ht
      exact .grow h rfl rfl rfl ⟨u, ds ++ [c], hu, .snoc hds hd, by simp, hlt, by simp⟩
    · cases ht
  · split at ht
    · rename_i hc
      obtain ⟨rfl, hpos⟩ := hc
      rw [List.append_assoc, List.append_assoc]
      exact .deliverCode h hu (fun e he => .braces (he ▸ hds) hpos hl) ht
    · cases ht

end Escapes

theorem Described.stepMode (h : Described limit s w) (hs : s.Counted)
    (ht : Parser.stepMode limit s c = .ok t) :
    Described limit t (w ++ [c]) := by
  cases h with
  | @mk depth w u h hu =>
    have hdepth := hs.depth_eq
    unfold Parser.stepMode at ht
    split at ht
    all_goals
      rename_i hm
      rw [hm] at hu hdepth
    · obtain rfl := hu
      exact .stepUnion h hm (hdepth.trans (Nat.zero_add _)) ht
    · obtain ⟨hd, rfl⟩ := hu
      exact .stepGroupHead h hd (hdepth.trans (Nat.add_comm _ _)) ht
    · obtain ⟨hd, rfl⟩ := hu
      exact .stepGroupFlag h hd ht
    · obtain ⟨hd, rfl⟩ := hu
      exact .stepGroupFlagP h hd ht
    · obtain ⟨hd, hl, hu⟩ := hu
      exact .stepGroupName h hd hl hu ht
    · obtain ⟨hn, hu⟩ := hu
      exact .stepCount h hn hu ht
    · rw [Mode.opened, classStarts, List.length_map, List.length_cons] at hdepth
      exact .stepClass h hu (by omega) ht
    · obtain ⟨v, hv, rfl⟩ := hu
      exact .stepEscape h hv ht
    · obtain ⟨v, hv, rfl⟩ := hu
      exact .stepHexHead h hv ht
    · obtain ⟨v, ds, l, hv, hds, hpos, hl, rfl⟩ := hu
      exact .stepHexFixed h hv hds hpos hl ht
    · obtain ⟨v, ds, hv, hds, rfl, hl, rfl⟩ := hu
      exact .stepHexBraced h hv hds hl ht

theorem Described.atOffset (h : Described limit s w) (o : ℕ) : Described limit (s.at o) w := by
  cases h with
  | mk h hu => exact .resume h rfl rfl rfl hu

/-- Reading a character keeps the description. -/
theorem Described.step (h : Described limit s w) (hs : s.Counted)
    (ht : Parser.step limit s c = .ok t) :
    Described limit t (w ++ [c]) := by
  unfold Parser.step at ht
  cases hmode : Parser.stepMode limit s c with
  | error e =>
    rw [hmode] at ht
    cases ht
  | ok t' =>
    rw [hmode] at ht
    cases ht
    exact (h.stepMode hs hmode).atOffset _

theorem Described.run (h : Described limit s w) (hs : s.Counted)
    (ht : Parser.run limit s v = .ok t) : Described limit t (w ++ v) := by
  induction v generalizing s w with
  | nil =>
    cases ht
    rwa [List.append_nil]
  | cons c v ih =>
    rw [run_cons] at ht
    obtain ⟨s', hs', ht⟩ := ok_of_bind ht
    rw [← List.singleton_append, ← List.append_assoc]
    exact ih (h.step hs hs') (counted_step hs' hs).1 ht

theorem described_initial : Described limit .initial [] := .whole .initial rfl

/-- What is read to its end is a pattern of the grammar. -/
theorem exists_isPattern {n : Node} (h : parseChars limit w = .ok n) :
    ∃ l, IsPattern limit w l := by
  obtain ⟨t, ht, hfinish⟩ := ok_of_bind h
  clear h
  have hd : Described limit t w := described_initial.run rfl ht
  cases hd with
  | mk h hu =>
    unfold finish at hfinish
    split at hfinish
    · rename_i hm hg
      rw [hm] at hu
      obtain rfl := hu
      cases h with
      | mk hw hv hn hd =>
        rw [hg] at hw
        cases hw with
        | nil =>
          obtain ⟨l, hv⟩ := hv.isUnion
          refine ⟨l, _, ?_, hd⟩
          simpa using hv
    all_goals cases hfinish

/-- What is read to its end is read as its tree. -/
theorem exists_isTree_of_parseChars {n : Node} (h : parseChars limit w = .ok n) :
    ∃ extra, IsTree limit extra w n := by
  obtain ⟨l, hl⟩ := exists_isPattern h
  obtain ⟨extra, n', ht, -⟩ := exists_isTree hl
  cases h.symm.trans (parseChars_of_isTree ht)
  exact ⟨extra, ht⟩

/-- The parser accepts exactly the patterns of the grammar, and the tree of a pattern has the
meaning of the pattern: the same words over points, with the same points consumed reluctantly. -/
theorem isPattern_iff_parse (limit : ℕ) (pattern : String) :
    ((∃ n, parse limit pattern = .ok n) ↔ ∃ m, IsPattern limit pattern.toList m) ∧
      ∀ m, IsPattern limit pattern.toList m ↔
        ∃ n, parse limit pattern = .ok n ∧ n.tagged = m ∧ n.words = m.language := by
  have complete : ∀ m, IsPattern limit pattern.toList m →
      ∃ n, parse limit pattern = .ok n ∧ n.tagged = m ∧ n.words = m.language := by
    intro m hm
    obtain ⟨n, hn, rfl⟩ := exists_parseChars hm
    exact ⟨n, hn, rfl, n.words_eq_untagged⟩
  have sound : ∀ n, parse limit pattern = .ok n → IsPattern limit pattern.toList n.tagged := by
    intro n hn
    obtain ⟨m, hm⟩ := exists_isPattern hn
    obtain ⟨n', hn', rfl, -⟩ := complete m hm
    cases hn.symm.trans hn'
    exact hm
  constructor
  · constructor
    · rintro ⟨n, hn⟩
      exact ⟨_, sound n hn⟩
    · rintro ⟨m, hm⟩
      obtain ⟨n, hn, -⟩ := complete m hm
      exact ⟨n, hn⟩
  · intro m
    constructor
    · exact complete m
    · rintro ⟨n, hn, rfl, -⟩
      exact sound n hn

end PatternAutomata.Parser
