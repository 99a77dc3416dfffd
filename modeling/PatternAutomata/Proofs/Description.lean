import PatternAutomata.Proofs.NestLimit
import PatternAutomata.Proofs.Reading

/-!
What is read is a pattern of the grammar. The characters before a place in a pattern are described
by the state that the reader is in: those before the innermost open group or class, those of the
forms that are complete, and those of the form that the state is in the middle of. Each step keeps
this description (`Described.step`).
-/

set_option autoImplicit false

namespace PatternAutomata.Parser

open Grammar

variable {limit depth : ℕ} {s t : State} {w v u : List Char} {names more : List String} {c : Char}

/-- The open alternative of a union: a concatenation, whose last repetition may go on. -/
inductive Alternative (depth : ℕ) : Pending → List Char → List String → Prop
  | none {w : List Char} {names : List String} {l : Meaning} (h : IsConcat depth w names l) :
    Alternative depth .none w names
  | term {w v : List Char} {names more : List String} {l k : Meaning} {n : Node}
    (h : IsConcat depth w names l) (hk : IsRepetition depth false v more k) :
    Alternative depth (.term n) (w ++ v) (names ++ more)
  | quantified {w v : List Char} {names more : List String} {l k : Meaning} {n : Node} {min : ℕ}
    {max : Option ℕ} (h : IsConcat depth w names l) (hk : IsRepetition depth true v more k) :
    Alternative depth (.quantified n min max) (w ++ v) (names ++ more)

inductive Open (depth : ℕ) : Pending → List Char → List String → Prop
  | first {p : Pending} {w : List Char} {names : List String} (h : Alternative depth p w names) :
    Open depth p w names
  | more {p : Pending} {w v : List Char} {names more : List String} {l : Meaning}
    (h : IsUnion depth w names l) (hk : Alternative depth p v more) :
    Open depth p (w ++ '|' :: v) (names ++ more)

/-- The characters up to the beginning of the innermost group, inside of which groups may nest
`depth` deep. -/
inductive Groups (limit : ℕ) : List OpenGroup → ℕ → List Char → List String → Prop
  | nil : Groups limit [] limit [] []
  | cons {depth : ℕ} {g : OpenGroup} {gs : List OpenGroup} {w v head : List Char}
    {names more new : List String} (h : Groups limit gs (depth + 1) w names)
    (hv : Open (depth + 1) g.outer.pending v more) (hh : GroupHead head new) :
    Groups limit (g :: gs) depth (w ++ v ++ head) (names ++ more ++ new)

theorem Alternative.isConcat {p : Pending} (h : Alternative depth p w names) :
    ∃ l, IsConcat depth w names l := by
  cases h with
  | none h => exact ⟨_, h⟩
  | term h hk => exact ⟨_, h.snoc hk⟩
  | quantified h hk => exact ⟨_, h.snoc hk⟩

theorem Open.isUnion {p : Pending} (h : Open depth p w names) : ∃ l, IsUnion depth w names l := by
  cases h with
  | first h =>
    obtain ⟨l, h⟩ := h.isConcat
    exact ⟨l, .single h⟩
  | more h hk =>
    obtain ⟨k, hk⟩ := hk.isConcat
    exact ⟨_, h.more hk⟩

theorem open_nil : Open depth .none [] [] := .first (.none .nil)

theorem Open.push {p : Pending} {k : Meaning} (h : Open depth p w names)
    (hk : IsTerm depth v more k) (n : Node) : Open depth (.term n) (w ++ v) (names ++ more) := by
  cases h with
  | first h =>
    obtain ⟨l, h⟩ := h.isConcat
    exact .first (.term h (.term hk))
  | more h hv =>
    obtain ⟨l, hv⟩ := hv.isConcat
    rw [List.append_assoc, List.append_assoc, List.cons_append]
    exact .more h (.term hv (.term hk))

theorem Open.extend {p q : Pending} (h : Open depth p w names)
    (hv : ∀ u more, Alternative depth p u more → Alternative depth q (u ++ v) more) :
    Open depth q (w ++ v) names := by
  cases h with
  | first h => exact .first (hv _ _ h)
  | more h hk =>
    rw [List.append_assoc, List.cons_append]
    exact .more h (hv _ _ hk)

theorem Open.nextAlternative {p : Pending} (h : Open depth p w names) :
    Open depth .none (w ++ ['|']) names := by
  obtain ⟨l, h⟩ := h.isUnion
  have := Open.more h (.none .nil)
  rwa [List.append_nil] at this

/-- A quantifier goes on with the last repetition. A question mark does so only if it does not make
the quantifier before it reluctant. -/
theorem Open.quantify {p : Pending} {q : List Char} {n : Node} {m : ℕ} {max : Option ℕ}
    (h : Open depth p w names) (hq : Quantifier q m max) (hn : p.node? = some n)
    (hp : q = ['?'] → ∃ n, p = .term n) (n' : Node) (m' : ℕ) (max' : Option ℕ) :
    Open depth (.quantified n' m' max') (w ++ q) names := by
  apply h.extend
  intro u more hu
  cases hu with
  | none => cases hn
  | term hu hk =>
    rw [List.append_assoc]
    exact .quantified hu (.greedy hk hq (by simp))
  | quantified hu hk =>
    rw [List.append_assoc]
    refine .quantified hu (.greedy hk hq fun _ hmark => ?_)
    obtain ⟨n, hn⟩ := hp hmark
    cases hn

theorem Open.mark {n : Node} {m : ℕ} {max : Option ℕ}
    (h : Open depth (.quantified n m max) w names) (n' : Node) :
    Open depth (.term n') (w ++ ['?']) names := by
  apply h.extend
  intro u more hu
  cases hu with
  | quantified hu hk =>
    cases hk with
    | greedy hk hq hb =>
      rw [List.append_assoc, List.append_assoc]
      exact .term hu (.reluctant hk hq hb)

theorem Groups.length_add {gs : List OpenGroup} (h : Groups limit gs depth w names) :
    gs.length + depth = limit := by
  induction h with
  | nil => exact Nat.zero_add limit
  | cons _ _ _ ih =>
    rw [List.length_cons]
    omega

/-- The complete forms before the one that is being read. -/
inductive Context (limit : ℕ) (s : State) (depth : ℕ) : List Char → Prop
  | mk {w v : List Char} {names more : List String} (hw : Groups limit s.groups depth w names)
    (hv : Open depth s.branch.pending v more) (hn : s.names = (names ++ more).reverse)
    (hd : (names ++ more).Nodup) : Context limit s depth (w ++ v)

namespace Context

theorem initial : Context limit .initial limit [] :=
  .mk (w := []) (v := []) .nil open_nil rfl List.nodup_nil

theorem length_add (h : Context limit s depth w) : s.groups.length + depth = limit := by
  cases h with
  | mk hw _ _ _ => exact hw.length_add

theorem extend (h : Context limit s depth w) (hg : t.groups = s.groups) (hn : t.names = s.names)
    (hv : ∀ u names, Open depth s.branch.pending u names →
      Open depth t.branch.pending (u ++ v) names) : Context limit t depth (w ++ v) := by
  cases h with
  | mk hw hu hs hd =>
    rw [List.append_assoc]
    exact .mk (hg ▸ hw) (hv _ _ hu) (hn.trans hs) hd

theorem resume (h : Context limit s depth w) (hg : t.groups = s.groups) (hn : t.names = s.names)
    (hb : t.branch = s.branch) : Context limit t depth w := by
  cases h with
  | mk hw hu hs hd => exact .mk (hg ▸ hw) (hb ▸ hu) (hn.trans hs) hd

theorem push {l : Meaning} (h : Context limit s depth w) (hv : IsTerm depth v [] l) (n : Node) :
    Context limit (s.push n) depth (w ++ v) := by
  apply h.extend (t := s.push n) rfl rfl
  intro u names hu
  have := hu.push hv n
  rwa [List.append_nil] at this

theorem enter {start : ℕ} {id : Option GroupId} (h : Context limit s (depth + 1) w)
    (hh : GroupHead v more) (hg : t.groups = ⟨start, id, s.branch⟩ :: s.groups)
    (hb : t.branch = .new) (hn : t.names = more.reverse ++ s.names) (hd : t.names.Nodup) :
    Context limit t depth (w ++ v) := by
  cases h with
  | @mk w' v' names' more' hw hu hs _ =>
    have hnames : t.names = (names' ++ more' ++ more ++ []).reverse := by
      simp [hn, hs]
    rw [hnames, List.nodup_reverse] at hd
    rw [← List.append_nil (w' ++ v' ++ v)]
    exact .mk (hg ▸ .cons hw hu hh) (hb ▸ open_nil) hnames hd

theorem close {g : OpenGroup} {gs : List OpenGroup} (h : Context limit s depth w)
    (hs : s.groups = g :: gs) (n : Node) :
    Context limit { s with groups := gs, branch := g.outer.push n } (depth + 1) (w ++ [')']) := by
  cases h with
  | mk hw hu hn hd =>
    rw [hs] at hw
    cases hw with
    | cons hw hv hh =>
      obtain ⟨l, hu⟩ := hu.isUnion
      have hp := hv.push (.group hh hu) n
      simp only [List.append_assoc] at hn hd ⊢
      exact .mk hw hp hn hd

end Context

/-- In a class around which classes may nest `depth + 1` deep, `u` is the class before an item or
its end that begins with `c`. -/
def Continues (depth : ℕ) (first : Bool) (c : Char) (u : List Char) : Prop :=
  ∀ rest m, rest.head? = some c → ClassBody depth first rest m →
    ∃ m', IsClass (depth + 1) (u ++ rest) m'

inductive Classes (top : ℕ) : List OpenClass → ℕ → List Char → Prop
  | nil : Classes top [] top []
  | cons {depth : ℕ} {o : OpenClass} {os : List OpenClass} {w u : List Char} {first : Bool}
    (h : Classes top os (depth + 1) w) (hu : Continues depth first '[' u) :
    Classes top (o :: os) depth (w ++ u)

theorem Classes.length_add {top : ℕ} {os : List OpenClass} (h : Classes top os depth w) :
    os.length + depth = top := by
  induction h with
  | nil => exact Nat.zero_add top
  | cons _ _ ih =>
    rw [List.length_cons]
    omega

def Place (depth : ℕ) : ClassPlace → List Char → Prop
  | .head, u => u = ['[']
  | .first, u => u = ['[', '^']
  | .items, u => ∀ c, Continues depth false c u
  | .lower c _, u =>
    (∀ rest m, NoRange rest → ClassBody depth false rest m →
      ∃ m', IsClass (depth + 1) (u ++ rest) m') ∧
      ∀ v d rest m, UpperChar v d → c ≤ d → ClassBody depth false rest m →
        ∃ m', IsClass (depth + 1) (u ++ '-' :: (v ++ rest)) m'
  | .hyphen c _, u =>
    (∃ m, IsClass (depth + 1) (u ++ [']']) m) ∧
      ∀ v d rest m, UpperChar v d → c ≤ d → ClassBody depth false rest m →
        ∃ m', IsClass (depth + 1) (u ++ (v ++ rest)) m'

/-- The classes that are open, with what has been read of the innermost one. -/
inductive InClass (top : ℕ) (outer : List OpenClass) (p : ℕ → List Char → Prop) :
    List Char → Prop
  | mk {depth : ℕ} {w u : List Char} (h : Classes top outer (depth + 1) w) (hu : p depth u) :
    InClass top outer p (w ++ u)

theorem InClass.extend {top : ℕ} {outer : List OpenClass} {p q : ℕ → List Char → Prop}
    (h : InClass top outer p w) (hq : ∀ depth u, p depth u → q depth (u ++ v)) :
    InClass top outer q (w ++ v) := by
  cases h with
  | mk h hu =>
    rw [List.append_assoc]
    exact .mk h (hq _ _ hu)

def Site (top : ℕ) : EscapeSite → List Char → Prop
  | .term, u => u = []
  | .item _ outer, u => InClass top outer (fun depth u => ∃ first, Continues depth first '\\' u) u
  | .upper _ outer lower _, u =>
    InClass top outer (fun depth u => ∀ v d rest m, UpperChar v d → lower ≤ d →
      ClassBody depth false rest m → ∃ m', IsClass (depth + 1) (u ++ (v ++ rest)) m') u

def Counted : Count → List Char → Prop
  | .min none, u => u = ['\x7b']
  | .min (some m), u => ∃ ds, IsCount ds m ∧ u = '\x7b' :: ds
  | .comma m, u => ∃ ds, IsCount ds m ∧ u = '\x7b' :: (ds ++ [','])
  | .max m n, u => ∃ ds es, IsCount ds m ∧ IsCount es n ∧ u = '\x7b' :: (ds ++ ',' :: es)

def fixedLengths : List (Char × ℕ) := [('x', 2), ('u', 4)]

/-- The characters of the form that the next character continues. -/
def Partial (depth : ℕ) (p : Pending) : Mode → List Char → Prop
  | .union, u => u = []
  | .groupHead _, u => 0 < depth ∧ u = ['(']
  | .groupFlag _, u => 0 < depth ∧ u = ['(', '?']
  | .groupFlagP _ _, u => 0 < depth ∧ u = ['(', '?', 'P']
  | .groupName _ _ letters, u =>
    0 < depth ∧ (∀ c ∈ letters, IsNameChar c) ∧
      (u = '(' :: '?' :: '<' :: letters.reverse ∨ u = '(' :: '?' :: 'P' :: '<' :: letters.reverse)
  | .count _ count, u => (∃ n, p.node? = some n) ∧ Counted count u
  | .inClass _ outer place, u => InClass depth outer (fun d => Place d place) u
  | .escape _ site, u => ∃ v, Site depth site v ∧ u = v ++ ['\\']
  | .hexHead _ site, u => ∃ v, Site depth site v ∧ u = v ++ ['\\', 'u']
  | .hexFixed _ site missing value, u =>
    ∃ v ds l, Site depth site v ∧ IsHex ds value ∧ 0 < missing ∧
      (l, ds.length + missing) ∈ fixedLengths ∧ u = v ++ '\\' :: l :: ds
  | .hexBraced _ site length value, u =>
    ∃ v ds, Site depth site v ∧ IsHex ds value ∧ ds.length = length ∧ length ≤ 6 ∧
      u = v ++ '\\' :: 'u' :: '\x7b' :: ds

/-- What has been read in a state: complete forms, and then a part of the next one. -/
inductive Described (limit : ℕ) (s : State) : List Char → Prop
  | mk {depth : ℕ} {w u : List Char} (h : Context limit s depth w)
    (hu : Partial depth s.branch.pending s.mode u) : Described limit s (w ++ u)

/-- The complete forms are still the same. -/
theorem Described.resume {depth : ℕ} (h : Context limit s depth w) (hg : t.groups = s.groups)
    (hn : t.names = s.names) (hb : t.branch = s.branch)
    (hu : Partial depth s.branch.pending t.mode u) : Described limit t (w ++ u) :=
  .mk (h.resume hg hn hb) (hb ▸ hu)

/-- Only the part of the next form grows. -/
theorem Described.grow {depth : ℕ} (h : Context limit s depth w) (hg : t.groups = s.groups)
    (hn : t.names = s.names) (hb : t.branch = s.branch)
    (hu : Partial depth s.branch.pending t.mode (u ++ [c])) :
    Described limit t (w ++ u ++ [c]) := by
  rw [List.append_assoc]
  exact .resume h hg hn hb hu

theorem Described.whole {depth : ℕ} (h : Context limit t depth w) (hm : t.mode = .union) :
    Described limit t w := by
  rw [← List.append_nil w]
  refine .mk h ?_
  rw [hm]
  exact rfl

theorem Described.complete {depth : ℕ} (h : Context limit t depth (w ++ (u ++ [c])))
    (hm : t.mode = .union) : Described limit t (w ++ u ++ [c]) := by
  rw [List.append_assoc]
  exact .whole h hm

theorem enter_eq_ok {next : State} (h : enter limit s next = .ok t) :
    s.depth < limit ∧ next.deeper = t := by
  unfold enter at h
  split at h
  · cases h
  · rename_i hn
    exact ⟨not_le.1 hn, Except.ok.inj h⟩

section Union

variable {depth : ℕ}

theorem Described.quantified {n : Node} {m : ℕ} {max : Option ℕ} (h : Context limit s depth w)
    (hm : s.mode = .union) (hq : Quantifier [c] m max) (hn : s.branch.pending.node? = some n)
    (hp : c = '?' → ∃ n, s.branch.pending = .term n) :
    Described limit { s with branch.pending := .quantified n m max } (w ++ [] ++ [c]) := by
  refine .complete (h.extend rfl rfl fun u names hu => ?_) hm
  exact hu.quantify hq hn (fun h => hp (List.singleton_inj.1 h)) n m max

theorem Described.stepQuantifier (h : Context limit s depth w) (hm : s.mode = .union)
    (hc : c ∈ ['*', '+', '?', '\x7b']) (ht : Parser.stepQuantifier s c = .ok t) :
    Described limit t (w ++ [] ++ [c]) := by
  cases hn : s.branch.pending.node? with
  | none =>
    rw [stepQuantifier_none hn] at ht
    cases ht
  | some n =>
    obtain ⟨hstar, hplus, hbrace⟩ := stepQuantifier_of_node? hn
    simp only [List.mem_cons, List.not_mem_nil, or_false] at hc
    rcases hc with rfl | rfl | rfl | rfl
    · cases hstar.symm.trans ht
      exact .quantified h hm .star hn (by simp)
    · cases hplus.symm.trans ht
      exact .quantified h hm .plus hn (by simp)
    · cases hp : s.branch.pending with
      | none =>
        rw [hp] at hn
        cases hn
      | term k =>
        cases (stepQuantifier_option hp).symm.trans ht
        refine .quantified h hm .option (by rw [hp]; rfl) fun _ => ⟨k, hp⟩
      | quantified k m max =>
        cases (stepQuantifier_mark hp).symm.trans ht
        refine .complete (h.extend rfl rfl fun u names hu => ?_) hm
        rw [hp] at hu
        exact hu.mark _
    · cases hbrace.symm.trans ht
      exact .grow h rfl rfl rfl ⟨⟨n, hn⟩, rfl⟩

theorem Described.stepUnion (h : Context limit s depth w) (hm : s.mode = .union)
    (hs : s.depth = s.groups.length) (ht : Parser.stepUnion limit s c = .ok t) :
    Described limit t (w ++ [] ++ [c]) := by
  have term : ∀ {c l} n, IsTerm depth [c] [] l → Described limit (s.push n) (w ++ [] ++ [c]) := by
    intro c l n hl
    exact .complete (h.push hl n) rfl
  have hdepth := h.length_add
  unfold Parser.stepUnion at ht
  split at ht
  · obtain ⟨hlimit, rfl⟩ := enter_eq_ok ht
    exact .grow h rfl rfl rfl ⟨by omega, rfl⟩
  · unfold closeGroup at ht
    split at ht
    · cases ht
    · rename_i g gs hg
      cases ht
      exact .complete ((h.close hg _).resume rfl rfl rfl) hm
  · cases ht
    exact .complete (h.extend rfl rfl fun u names hu => hu.nextAlternative) hm
  · obtain ⟨hlimit, rfl⟩ := enter_eq_ok ht
    refine .grow h rfl rfl rfl ?_
    obtain ⟨depth, rfl⟩ : ∃ d, depth = d + 1 := ⟨depth - 1, by omega⟩
    exact .mk (w := []) .nil rfl
  · cases ht
    exact term _ .any
  · cases ht
    exact term _ .stop
  · cases ht
    exact term _ .start
  · cases ht
    exact .grow h rfl rfl rfl ⟨[], rfl, rfl⟩
  · exact .stepQuantifier h hm (by decide) ht
  · exact .stepQuantifier h hm (by decide) ht
  · exact .stepQuantifier h hm (by decide) ht
  · exact .stepQuantifier h hm (by decide) ht
  · cases ht
    refine term _ (.literal ?_)
    simp_all [reserved]

end Union

section Groups

variable {depth start flag nameStart : ℕ} {letters : List Char}

theorem Described.entered {id : Option GroupId} (h : Context limit s (depth + 1) w)
    (hh : GroupHead (u ++ [c]) more) (hg : t.groups = ⟨start, id, s.branch⟩ :: s.groups)
    (hb : t.branch = .new) (hn : t.names = more.reverse ++ s.names) (hd : t.names.Nodup)
    (hm : t.mode = .union) : Described limit t (w ++ u ++ [c]) :=
  .complete (h.enter hh hg hb hn hd) hm

theorem Context.nodup (h : Context limit s depth w) : s.names.Nodup := by
  cases h with
  | mk _ _ hn hd =>
    rw [hn]
    exact List.nodup_reverse.2 hd

theorem Described.stepGroupHead (h : Context limit s depth w) (hd : 0 < depth)
    (hs : s.depth = s.groups.length + 1) (ht : Parser.stepGroupHead limit s start c = .ok t) :
    Described limit t (w ++ ['('] ++ [c]) := by
  unfold Parser.stepGroupHead at ht
  split at ht
  · rename_i hc
    cases ht
    rw [hc]
    exact .grow h rfl rfl rfl ⟨hd, rfl⟩
  · obtain ⟨depth, rfl⟩ := Nat.exists_eq_add_of_le' hd
    have hentered : Context limit (s.enterNumbered start) depth (w ++ ['(']) :=
      h.enter .numbered rfl rfl rfl h.nodup
    have := Described.stepUnion hentered rfl hs ht
    rwa [List.append_nil] at this

theorem Described.stepGroupFlag (h : Context limit s depth w) (hd : 0 < depth)
    (ht : Parser.stepGroupFlag s start c = .ok t) :
    Described limit t (w ++ ['(', '?'] ++ [c]) := by
  unfold Parser.stepGroupFlag at ht
  split at ht
  · cases ht
    obtain ⟨depth, rfl⟩ := Nat.exists_eq_add_of_le' hd
    exact .entered h .plain rfl rfl rfl h.nodup rfl
  · cases ht
    exact .grow h rfl rfl rfl ⟨hd, by simp, .inl rfl⟩
  · cases ht
    exact .grow h rfl rfl rfl ⟨hd, rfl⟩
  · cases ht

theorem Described.stepGroupFlagP (h : Context limit s depth w) (hd : 0 < depth)
    (ht : Parser.stepGroupFlagP s start flag c = .ok t) :
    Described limit t (w ++ ['(', '?', 'P'] ++ [c]) := by
  unfold Parser.stepGroupFlagP at ht
  split at ht
  · rename_i hc
    cases ht
    rw [hc]
    exact .grow h rfl rfl rfl ⟨hd, by simp, .inr rfl⟩
  · cases ht

theorem Described.stepGroupName (h : Context limit s depth w) (hd : 0 < depth)
    (hl : ∀ c ∈ letters, IsNameChar c)
    (hu : u = '(' :: '?' :: '<' :: letters.reverse ∨
      u = '(' :: '?' :: 'P' :: '<' :: letters.reverse)
    (ht : Parser.stepGroupName s start nameStart letters c = .ok t) :
    Described limit t (w ++ u ++ [c]) := by
  unfold Parser.stepGroupName at ht
  split at ht
  · rename_i hc
    cases ht
    refine .grow h rfl rfl rfl ⟨hd, ?_, ?_⟩
    · exact List.forall_mem_cons.2 ⟨(isNameChar_iff c).1 hc, hl⟩
    · rcases hu with rfl | rfl
      · exact .inl (by simp)
      · exact .inr (by simp)
  · split at ht
    · cases ht
    · split at ht
      · cases ht
      · dsimp only at ht
        split at ht
        · cases ht
        · rename_i hc hempty hfresh
          cases ht
          obtain ⟨depth, rfl⟩ := Nat.exists_eq_add_of_le' hd
          have htext : (String.ofList letters.reverse).toList = letters.reverse := by simp
          have hname : IsName (String.ofList letters.reverse) := by
            refine ⟨by simpa using hempty, ?_⟩
            simpa using hl
          have hhead : GroupHead (u ++ [c]) [String.ofList letters.reverse] := by
            obtain rfl := not_not.1 hc
            rcases hu with rfl | rfl
            · have := GroupHead.named hname
              rwa [htext] at this
            · have := GroupHead.lettered hname
              rwa [htext] at this
          refine .entered h hhead rfl rfl rfl ?_ rfl
          exact List.nodup_cons.2 ⟨by simpa using hfresh, h.nodup⟩

end Groups

section Counts

variable {depth start m : ℕ} {count : Count} {ds : List Char} {d : ℕ}

theorem IsCount.snoc (h : IsCount ds m) (hc : Digits.decimalValue? c = some d)
    (hm : m * 10 + d < 2 ^ 32) : IsCount (ds ++ [c]) (m * 10 + d) :=
  ⟨by simp, .snoc h.2.1 hc, hm⟩

theorem isCount_singleton (hc : Digits.decimalValue? c = some d) (hm : 0 * 10 + d < 2 ^ 32) :
    IsCount [c] (0 * 10 + d) :=
  ⟨by simp, .snoc .nil hc, hm⟩

theorem appendDigit_eq_ok {next : ℕ → Count} {value : ℕ}
    (h : appendDigit s start value d next = .ok t) :
    value * 10 + d < 2 ^ 32 ∧ t = s.inMode (.count start (next (value * 10 + d))) := by
  unfold appendDigit at h
  dsimp only at h
  split at h
  · cases h
    exact ⟨(lt_iff_le_countMax _).2 ‹_›, rfl⟩
  · cases h

theorem Described.finishCount {max : Option ℕ} (h : Context limit s depth w)
    (hq : (∀ x, max = some x → m ≤ x) → Quantifier (u ++ [c]) m max) (hu : u ≠ [])
    (ht : Parser.finishCount s start m max = .ok t) : Described limit t (w ++ u ++ [c]) := by
  have quantified : ∀ n, s.branch.pending.node? = some n → (∀ x, max = some x → m ≤ x) →
      Described limit (s.withPending (.quantified n m max)) (w ++ u ++ [c]) := by
    intro n hn hle
    refine .complete (h.extend rfl rfl fun v names hv => ?_) rfl
    refine hv.quantify (hq hle) hn (fun hmark => ?_) n m max
    cases u with
    | nil => exact absurd rfl hu
    | cons _ _ => simp at hmark
  unfold Parser.finishCount at ht
  split at ht
  · cases ht
  · rename_i n hn
    cases ht
    exact quantified n hn (by simp)
  · rename_i n max hn
    split at ht
    · cases ht
    · rename_i hle
      cases ht
      exact quantified n hn (by simpa using hle)

theorem Described.stepCount (h : Context limit s depth w)
    (hn : ∃ n, s.branch.pending.node? = some n) (hu : Counted count u)
    (ht : Parser.stepCount s start count c = .ok t) : Described limit t (w ++ u ++ [c]) := by
  have grow : ∀ count', Counted count' (u ++ [c]) →
      Described limit (s.inMode (.count start count')) (w ++ u ++ [c]) := by
    intro count' hcount
    exact .grow h rfl rfl rfl ⟨hn, hcount⟩
  unfold Parser.stepCount at ht
  split at ht
  · rename_i value d hc
    obtain ⟨hm, rfl⟩ := appendDigit_eq_ok ht
    cases value with
    | none =>
      obtain rfl := hu
      exact grow _ ⟨[c], isCount_singleton hc hm, rfl⟩
    | some m =>
      obtain ⟨ds, hds, rfl⟩ := hu
      exact grow _ ⟨ds ++ [c], IsCount.snoc hds hc hm, rfl⟩
  · rename_i m d hc
    obtain ⟨hm, rfl⟩ := appendDigit_eq_ok ht
    obtain ⟨ds, hds, rfl⟩ := hu
    exact grow _ ⟨ds, [c], hds, isCount_singleton hc hm, by simp⟩
  · rename_i m value d hc
    obtain ⟨hm, rfl⟩ := appendDigit_eq_ok ht
    obtain ⟨ds, es, hds, hes, rfl⟩ := hu
    exact grow _ ⟨ds, es ++ [c], hds, IsCount.snoc hes hc hm, by simp⟩
  · rename_i m _
    obtain ⟨ds, hds, rfl⟩ := hu
    split at ht
    · rename_i hc
      cases ht
      exact grow _ ⟨ds, hds, by simp [hc]⟩
    · split at ht
      · rename_i hc
        rw [hc]
        exact .finishCount h (fun _ => .exactly hds) (by simp) ht
      · cases ht
  · rename_i m _
    obtain ⟨ds, hds, rfl⟩ := hu
    split at ht
    · rename_i hc
      rw [hc]
      refine .finishCount h (fun _ => ?_) (by simp) ht
      simpa using Quantifier.atLeast hds
    · cases ht
  · rename_i m value _
    obtain ⟨ds, es, hds, hes, rfl⟩ := hu
    split at ht
    · rename_i hc
      rw [hc]
      refine .finishCount h (fun hle => ?_) (by simp) ht
      simpa using Quantifier.bounded hds hes (hle value rfl)
    · cases ht
  · cases ht

end Counts

end PatternAutomata.Parser
