import PatternAutomata.PointMap.Edit
import PatternAutomata.Proofs.Bounds.Access
import PatternAutomata.Proofs.PointMap
import PatternAutomata.Proofs.PointSet
import Mathlib.Data.List.Chain

/-!
Edits of a map over points, done to an array of its entries. Entries are split where a span begins
and where it ends, what lies between is spliced out, and neighbours of one value become one. However
a map is made, this comes to the entries that it has.
-/

set_option autoImplicit false

namespace PatternAutomata.PointMap

open Fault (read partitionPoint splice)

variable {V W : Type}

/-! ### Arrays of entries -/

def indexAt (xs : Array (Entry V)) (p : ℤ) : Except Fault ℕ := do
  let n ← partitionPoint (·.start ≤ p) xs 0 xs.size
  if n = 0 then .error .outOfRange else return n - 1

def getBySearch (xs : Array (Entry V)) (p : ℤ) : Except Fault (Option V) := do
  if p < Point.endOfInput ∨ Point.top ≤ p then return none
  return (← read xs (← indexAt xs p)).value

/-- Sees to it that an entry begins at a point, and finds its index. At the top, this is the number
of entries. -/
def split (xs : Array (Entry V)) (p : ℤ) : Except Fault (Array (Entry V) × ℕ) := do
  if p = Point.top then return (xs, xs.size)
  let i ← indexAt xs p
  let e ← read xs i
  if e.start = p then return (xs, i)
  return (← splice xs (i + 1) (i + 1) [⟨p, e.value⟩], i + 1)

section

variable [DecidableEq V]

def dropRepeated (xs : Array (Entry V)) (i : ℕ) : Except Fault (Array (Entry V)) := do
  if (← read xs (i - 1)).value = (← read xs i).value then splice xs i (i + 1) [] else return xs

/-- Joins an entry with its neighbours, where they have its value. What follows goes first, so that
the index stays right. -/
def coalesce (xs : Array (Entry V)) (i : ℕ) : Except Fault (Array (Entry V)) := do
  let xs ← (if i + 1 < xs.size then dropRepeated xs (i + 1) else pure xs)
  if 0 < i then dropRepeated xs i else return xs

def assignBySplice (xs : Array (Entry V)) (r : Span) (v : Option V) :
    Except Fault (Array (Entry V)) := do
  if r.start = r.stop then return xs
  let first ← split xs r.start
  let last ← split first.1 r.stop
  coalesce (← splice last.1 first.2 last.2 [⟨r.start, v⟩]) first.2

def imagesFrom [DecidableEq W] (f : V → Option W) :
    (mapped : Array (Entry W)) → List (Entry V) → Array (Entry W)
  | mapped, [] => mapped
  | mapped, e :: es =>
    if mapped.back?.map Entry.value = some (e.value.bind f) then imagesFrom f mapped es
    else imagesFrom f (mapped.push ⟨e.start, e.value.bind f⟩) es

end

def Script.runBySplices {V : Type} : Script V → Except Fault (Array (Entry V))
  | empty => .ok #[⟨Point.endOfInput, none⟩]
  | fill m start stop v => do
    assignBySplice (← m.runBySplices) (← Span.make start stop) (some v)
  | fillSet m s v => do
    s.spans.foldlM (fun xs r => assignBySplice xs r (some v)) (← m.runBySplices)
  | clear m start stop => do assignBySplice (← m.runBySplices) (← Span.make start stop) none
  | filterMap m f => return imagesFrom f #[] (← m.runBySplices).toList

/-! ### Splitting -/

variable {m : PointMap V} {es : List (Entry V)} {p : ℤ}

/-- Entries that share out the domain, whatever their values. -/
structure Tiles (es : List (Entry V)) : Prop where
  ascending : es.Pairwise fun d e => d.start < e.start
  below : ∀ e ∈ es, e.start < Point.top
  first : es.head?.map Entry.start = some Point.endOfInput

theorem tiles_entries (m : PointMap V) : Tiles m.entries :=
  ⟨m.covers.1.pairwise, fun e he => (m.covers.1.bounds e he).2, m.covers.2⟩

theorem Tiles.exists_indexAt (h : Tiles es) (hp : Point.endOfInput ≤ p) :
    ∃ before e after, es = before ++ e :: after ∧ e.start ≤ p ∧ (∀ d ∈ before, d.start < e.start) ∧
      (∀ d ∈ after, p < d.start) ∧ indexAt es.toArray p = .ok before.length := by
  obtain ⟨passed, after, hes, hpassed, hafter, hpoint⟩ := Fault.exists_partition
    (fun d : Entry V => d.start ≤ p)
    (h.ascending.imp fun h => by simp only [decide_eq_true_eq]; omega)
  rcases List.eq_nil_or_concat passed with rfl | ⟨before, e, rfl⟩
  · obtain ⟨d, hd, hstart⟩ := Option.map_eq_some_iff.1 h.first
    rw [List.nil_append] at hes
    have hlt := of_decide_eq_false (hafter d (List.mem_of_mem_head? (hes ▸ hd)))
    omega
  · have hsplit : es = before ++ e :: after := by
      rw [hes, List.concat_eq_append, List.append_assoc, List.singleton_append]
    have hascending := h.ascending
    rw [hsplit, List.pairwise_append] at hascending
    refine ⟨before, e, after, hsplit, of_decide_eq_true (hpassed e (by simp)),
      fun d hd => hascending.2.2 d hd e List.mem_cons_self,
      fun d hd => not_le.1 (of_decide_eq_false (hafter d hd)), ?_⟩
    rw [← List.size_toArray] at hpoint
    rw [indexAt, bind_of_ok hpoint, List.length_concat, if_neg (Nat.succ_ne_zero _)]
    rfl

theorem read_middle {before after : List (Entry V)} {e : Entry V} :
    read (before ++ e :: after).toArray before.length = .ok e :=
  Fault.read_head (List.cons_ne_nil e [])

theorem inForce_append {before after : List (Entry V)} {v : Option V}
    (h : ∀ d ∈ before, d.start ≤ p) :
    inForce p v (before ++ after) = inForce p (inForce p v before) after := by
  induction before generalizing v with
  | nil => rfl
  | cons d before ih =>
    have hd := h d List.mem_cons_self
    rw [List.cons_append, inForce, if_pos hd, inForce, if_pos hd]
    exact ih fun c hc => h c (List.mem_cons_of_mem _ hc)

theorem inForce_middle {before after : List (Entry V)} {e : Entry V} {v : Option V}
    (hbefore : ∀ d ∈ before, d.start < e.start) (he : e.start ≤ p)
    (hafter : ∀ d ∈ after, p < d.start) : inForce p v (before ++ e :: after) = e.value := by
  rw [inForce_append fun d hd => (hbefore d hd).le.trans he, inForce, if_pos he]
  cases after with
  | nil => rfl
  | cons d after => rw [inForce, if_neg (hafter d List.mem_cons_self).not_ge]

theorem getBySearch_eq (m : PointMap V) (p : ℤ) :
    getBySearch m.entries.toArray p = .ok (m.get? p) := by
  rw [getBySearch]
  by_cases hp : Point.InDomain p
  · have hin := hp
    obtain ⟨hlow, htop⟩ := hp
    obtain ⟨before, e, after, hes, he, hbefore, hafter, hindex⟩ :=
      m.tiles_entries.exists_indexAt hlow
    rw [if_neg (by omega), bind_of_ok hindex, get?_eq m hin, hes, bind_of_ok read_middle,
      inForce_middle hbefore he hafter]
    rfl
  · rw [if_pos (by simp only [Point.InDomain] at hp; omega), get?_eq_none m hp]
    rfl

theorem resume_of_lt (h : p < Point.top) :
    resume p es = ⟨p, inForce p none es⟩ :: es.dropWhile (·.start ≤ p) := if_pos h

theorem resume_of_ge (h : ¬p < Point.top) : resume p es = [] := if_neg h

/-- Splitting puts in what resumes at the point, after the entries that begin before it. -/
theorem Tiles.split_eq (h : Tiles es) (hp : Point.endOfInput ≤ p) (htop : p ≤ Point.top) :
    split es.toArray p = .ok ((es.takeWhile (·.start < p) ++ resume p es).toArray,
      (es.takeWhile (·.start < p)).length) := by
  rw [split]
  by_cases htop' : p = Point.top
  · have htake : es.takeWhile (·.start < p) = es :=
      List.takeWhile_eq_self_iff.2 fun e he => decide_eq_true ((h.below e he).trans_eq htop'.symm)
    rw [if_pos htop', htake, resume_of_ge htop'.not_lt, List.append_nil]
    rfl
  · obtain ⟨before, e, after, rfl, he, hbefore, hafter, hindex⟩ := h.exists_indexAt hp
    have hdrop : (before ++ e :: after).dropWhile (·.start ≤ p) = after := by
      rw [List.append_cons]
      refine Fault.dropWhile_append_eq (fun d hd => ?_) fun d hd =>
        decide_eq_false (not_le.2 (hafter d hd))
      rcases List.mem_append.1 hd with hd | hd
      · exact decide_eq_true ((hbefore d hd).le.trans he)
      · exact List.mem_singleton.1 hd ▸ decide_eq_true he
    have hresume : resume p (before ++ e :: after) = ⟨p, e.value⟩ :: after := by
      rw [resume_of_lt (lt_of_le_of_ne htop htop'), hdrop,
        inForce_middle hbefore he hafter]
    rw [if_neg htop', bind_of_ok hindex, hresume, bind_of_ok read_middle]
    -- The entry in force begins there, and nothing changes, or it is cut in two.
    by_cases heq : e.start = p
    · have htake : (before ++ e :: after).takeWhile (·.start < p) = before := by
        refine Fault.takeWhile_append_eq (fun d hd => decide_eq_true (heq ▸ hbefore d hd))
          fun d hd => ?_
        rcases List.mem_cons.1 hd with rfl | hd
        · exact decide_eq_false heq.not_lt
        · exact decide_eq_false (hafter d hd).le.not_gt
      rw [if_pos heq, htake]
      obtain ⟨start, value⟩ := e
      cases heq
      rfl
    · have htake : (before ++ e :: after).takeWhile (·.start < p) = before ++ [e] := by
        rw [List.append_cons]
        refine Fault.takeWhile_append_eq (fun d hd => ?_) fun d hd =>
          decide_eq_false (hafter d hd).le.not_gt
        rcases List.mem_append.1 hd with hd | hd
        · exact decide_eq_true ((hbefore d hd).trans_le he)
        · exact List.mem_singleton.1 hd ▸ decide_eq_true (lt_of_le_of_ne he heq)
      have hsplice := Fault.splice_eq (before ++ [e]) [] after [⟨p, e.value⟩]
      rw [List.nil_append, List.append_nil, List.length_append, List.length_singleton,
        List.append_assoc, List.singleton_append] at hsplice
      rw [if_neg heq, htake, bind_of_ok hsplice, List.length_append]
      rfl

theorem lt_of_mem_takeWhile : ∀ d ∈ es.takeWhile (·.start < p), d.start < p := by
  intro d hd
  have hpass := List.mem_takeWhile_imp hd
  exact of_decide_eq_true hpass

theorem lt_of_mem_dropWhile (h : es.Pairwise fun d e => d.start < e.start) :
    ∀ d ∈ es.dropWhile (·.start ≤ p), p < d.start := by
  intro d hd
  have hfail :=
    Fault.forall_of_dropWhile (fun d : Entry V => d.start ≤ p) (h.imp fun hlt => ?_) d hd
  · exact not_le.1 (of_decide_eq_false hfail)
  · simp only [decide_eq_true_eq]
    omega

theorem pairwise_resume (h : es.Pairwise fun d e => d.start < e.start) :
    (resume p es).Pairwise fun d e => d.start < e.start := by
  rw [resume]
  split
  · exact List.pairwise_cons.2
      ⟨lt_of_mem_dropWhile h, h.sublist (List.dropWhile_sublist _)⟩
  · exact .nil

theorem le_of_mem_resume (h : es.Pairwise fun d e => d.start < e.start) :
    ∀ d ∈ resume p es, p ≤ d.start := by
  intro d hd
  rw [resume] at hd
  split at hd
  · rcases List.mem_cons.1 hd with rfl | hd
    · exact le_rfl
    · exact (lt_of_mem_dropWhile h d hd).le
  · cases hd

theorem Tiles.split (h : Tiles es) (hp : Point.endOfInput ≤ p) :
    Tiles (es.takeWhile (·.start < p) ++ resume p es) := by
  refine ⟨List.pairwise_append.2 ⟨h.ascending.sublist (List.takeWhile_sublist _),
    pairwise_resume h.ascending, fun d hd e he => ?_⟩, fun d hd => ?_, ?_⟩
  · exact (lt_of_mem_takeWhile d hd).trans_le (le_of_mem_resume h.ascending e he)
  · rcases List.mem_append.1 hd with hd | hd
    · exact h.below d (List.takeWhile_subset _ hd)
    · rw [resume] at hd
      split at hd
      · rcases List.mem_cons.1 hd with rfl | hd
        · assumption
        · exact h.below d (List.dropWhile_subset _ hd)
      · cases hd
  · obtain ⟨e, he, hstart⟩ := Option.map_eq_some_iff.1 h.first
    obtain ⟨rest, rfl⟩ := List.head?_eq_some_iff.1 he
    by_cases hlt : e.start < p
    · rw [List.takeWhile_cons_of_pos (by simpa using hlt)]
      exact congrArg some hstart
    · have htop := h.below e List.mem_cons_self
      rw [List.takeWhile_cons_of_neg (by simpa using hlt), List.nil_append,
        resume_of_lt (by omega)]
      exact congrArg some (by simp only; omega)

theorem resume_split {q : ℤ} (hlt : p < q) :
    resume q (es.takeWhile (·.start < p) ++ resume p es) = resume q es := by
  by_cases htop : q < Point.top
  · have hfront : ∀ d ∈ es.takeWhile (·.start < p), d.start ≤ q := fun d hd =>
      (lt_of_mem_takeWhile d hd).le.trans hlt.le
    have hdrop : (es.dropWhile (·.start ≤ p)).dropWhile (·.start ≤ q) =
        es.dropWhile (·.start ≤ q) := by
      have hpassed : ∀ d ∈ es.takeWhile (·.start ≤ p), decide (d.start ≤ q) = true := by
        intro d hd
        have hle := List.mem_takeWhile_imp hd
        exact decide_eq_true ((of_decide_eq_true hle).trans hlt.le)
      rw [← List.dropWhile_append_of_pos hpassed, List.takeWhile_append_dropWhile]
    rw [resume_of_lt htop, resume_of_lt htop, inForce_append hfront, inForce_resume hlt.le htop,
      List.dropWhile_append_of_pos fun d hd => decide_eq_true (hfront d hd),
      resume_of_lt (hlt.trans htop),
      List.dropWhile_cons_of_pos (by simpa using hlt.le), hdrop]
  · rw [resume_of_ge htop, resume_of_ge htop]

/-! ### Assignment -/

theorem Ascends.isChain {low : ℤ} (h : Ascends low es) :
    es.IsChain fun d e => d.value ≠ e.value := by
  induction es generalizing low with
  | nil => exact .nil
  | cons d es ih =>
    refine List.isChain_cons.2 ⟨fun e he => ?_, ih h.2.2.ascends⟩
    obtain ⟨rest, rfl⟩ := List.head?_eq_some_iff.1 he
    exact h.2.2.2.2.1.symm

section

variable [DecidableEq V]

theorem dropRepeated_eq (before after : List (Entry V)) (d e : Entry V) :
    dropRepeated (before ++ d :: e :: after).toArray (before.length + 1) =
      .ok (before ++ glue d (e :: after)).toArray := by
  have hread : read ((before ++ [d]) ++ e :: after).toArray (before ++ [d]).length = .ok e :=
    read_middle
  rw [List.append_assoc, List.singleton_append, List.length_append, List.length_singleton] at hread
  rw [dropRepeated, Nat.add_sub_cancel, bind_of_ok read_middle, bind_of_ok hread, glue]
  by_cases hv : d.value = e.value
  · have hsplice := Fault.splice_eq (before ++ [d]) [e] after []
    rw [List.nil_append, List.append_assoc, List.append_assoc, List.singleton_append,
      List.singleton_append, List.append_assoc] at hsplice
    rw [if_pos hv, if_pos hv.symm]
    simpa using hsplice
  · rw [if_neg hv, if_neg fun h => hv h.symm]
    rfl

theorem glue_of_ne {d : Entry V} (h : ∀ e ∈ es.head?, d.value ≠ e.value) :
    glue d es = d :: es := by
  cases es with
  | nil => rfl
  | cons e es => rw [glue, if_neg fun heq => h e rfl heq.symm]

/-- Neighbours that differ stay apart, so just the last of them may take something in. -/
theorem foldr_glue_concat {before : List (Entry V)} {d : Entry V}
    (h : (before ++ [d]).IsChain fun c e => c.value ≠ e.value) (ts : List (Entry V)) :
    (before ++ [d]).foldr glue ts = before ++ glue d ts := by
  induction before with
  | nil => rfl
  | cons c before ih =>
    obtain ⟨hc, hrest⟩ := List.isChain_cons.1 h
    rw [List.cons_append, List.foldr_cons, ih hrest, glue_of_ne]
    · rfl
    · intro e he
      refine hc e ?_
      cases before with
      | nil => rwa [List.nil_append, head?_glue] at he
      | cons b before => exact he

theorem coalesce_eq {front : List (Entry V)} (h : front.IsChain fun c e => c.value ≠ e.value)
    (d : Entry V) (rest : List (Entry V)) :
    coalesce (front ++ d :: rest).toArray front.length =
      .ok (front.foldr glue (glue d rest)).toArray := by
  have hahead : (if front.length + 1 < (front ++ d :: rest).toArray.size then
      dropRepeated (front ++ d :: rest).toArray (front.length + 1)
      else pure (front ++ d :: rest).toArray) = .ok (front ++ glue d rest).toArray := by
    cases rest with
    | nil =>
      rw [if_neg (by simp)]
      rfl
    | cons e rest =>
      rw [if_pos (by simp)]
      exact dropRepeated_eq front rest d e
  rw [coalesce, bind_of_ok hahead]
  -- In front of the entry there is none at all, or a last one.
  rcases List.eq_nil_or_concat front with rfl | ⟨before, c, rfl⟩
  · rfl
  · rw [List.concat_eq_append] at h ⊢
    obtain ⟨tail, htail⟩ := List.head?_eq_some_iff.1 (head?_glue d rest)
    have hbehind := dropRepeated_eq before tail c d
    rw [if_pos (by simp), foldr_glue_concat h, htail, List.length_append, List.length_singleton,
      List.append_assoc]
    exact hbehind

theorem assignBySplice_eq (m : PointMap V) {r : Span} (hr : r.Valid) (v : Option V) :
    assignBySplice m.entries.toArray r v = .ok (m.assign r v).entries.toArray := by
  rw [assignBySplice]
  by_cases hempty : r.start = r.stop
  · rw [if_pos hempty, assign, dif_pos]
    · rfl
    · rw [Span.Valid.overlap_domain hr]
      exact (Span.Valid.isEmpty_iff hr).2 hempty
  · have ⟨hlow, hle, htop⟩ := hr
    have hlt : r.start < r.stop := lt_of_le_of_ne hle hempty
    have htiles := m.tiles_entries.split hlow
    have hassign : (m.assign r v).entries = override r v m.entries := by
      rw [assign, dif_neg]
      · exact congrArg (override · v m.entries) (Span.Valid.overlap_domain hr)
      · rw [Span.Valid.overlap_domain hr]
        exact mt (Span.Valid.isEmpty_iff hr).1 hempty
    have hfront : ∀ d ∈ m.entries.takeWhile (·.start < r.start), decide (d.start < r.stop) = true :=
      fun d hd => decide_eq_true ((lt_of_mem_takeWhile d hd).trans hlt)
    have hlast := htiles.split_eq (hlow.trans hle) htop
    rw [resume_split hlt, List.takeWhile_append_of_pos hfront, List.append_assoc] at hlast
    rw [if_neg hempty, bind_of_ok (m.tiles_entries.split_eq hlow (hle.trans htop)),
      bind_of_ok hlast, bind_of_ok (Fault.splice_eq _ _ _ _), hassign]
    exact coalesce_eq ( List.IsChain.prefix m.covers.1.isChain (List.takeWhile_prefix _)) _ _

theorem foldlM_assignBySplice_eq (m : PointMap V) {rs : List Span} (h : ∀ r ∈ rs, r.Valid) (v : V) :
    rs.foldlM (fun xs r => assignBySplice xs r (some v)) m.entries.toArray =
      .ok (rs.foldl (fun m r => m.fill r v) m).entries.toArray := by
  induction rs generalizing m with
  | nil => rfl
  | cons r rs ih =>
    rw [List.foldlM_cons, bind_of_ok (assignBySplice_eq m (h r List.mem_cons_self) (some v)),
      List.foldl_cons]
    exact ih (m.fill r v) fun t ht => h t (List.mem_cons_of_mem _ ht)

/-! ### Images -/

theorem glue_glue_of_eq {d e : Entry V} (h : d.value = e.value) (ts : List (Entry V)) :
    glue d (glue e ts) = glue d ts := by
  cases ts with
  | nil => exact if_pos h.symm
  | cons t ts =>
    by_cases ht : t.value = e.value
    · rw [glue, if_pos ht, glue, if_pos h.symm, glue, if_pos (ht.trans h.symm)]
    · rw [glue, if_neg ht, glue, if_pos h.symm, glue, if_neg fun heq => ht (heq.trans h)]

theorem imagesFrom_eq {U : Type} (f : U → Option V) (before : List (Entry V)) (d : Entry V)
    (es : List (Entry U)) :
    imagesFrom f (before ++ [d]).toArray es = (before ++ glue d (images f es)).toArray := by
  induction es generalizing before d with
  | nil => rfl
  | cons e es ih =>
    have hlast : (before ++ [d]).toArray.back? = some d := by simp
    have himages : images f (e :: es) = glue ⟨e.start, e.value.bind f⟩ (images f es) := rfl
    rw [imagesFrom, hlast, Option.map_some, himages]
    by_cases hv : d.value = e.value.bind f
    · rw [if_pos (congrArg some hv), ih, glue_glue_of_eq hv]
    · have hapart : glue d (glue ⟨e.start, e.value.bind f⟩ (images f es)) =
          d :: glue ⟨e.start, e.value.bind f⟩ (images f es) := by
        refine glue_of_ne fun t ht => ?_
        rw [head?_glue] at ht
        cases ht
        exact hv
      rw [if_neg fun heq => hv (Option.some.inj heq), List.push_toArray, ih, hapart,
        List.append_assoc]
      rfl

theorem imagesFrom_entries {U : Type} (f : U → Option V) (m : PointMap U) :
    imagesFrom f #[] m.entries = (m.filterMap f).entries.toArray := by
  obtain ⟨e, es, hes, -⟩ := m.exists_head
  change _ = (images f m.entries).toArray
  rw [hes]
  exact imagesFrom_eq f [] ⟨e.start, e.value.bind f⟩ es

theorem Edit.map_applyOver {edit : Span → Edit V} {start stop : ℤ} {v : Option V}
    (h : ∀ r, (edit r).apply m = m.assign r v) :
    (Span.make start stop >>= fun r => assignBySplice m.entries.toArray r v) =
      (applyOver edit start stop m).map (·.entries.toArray) := by
  rw [applyOver, Span.make]
  split
  case isTrue hvalid =>
    change assignBySplice _ _ v = .ok ((edit _).apply m).entries.toArray
    rw [h]
    exact assignBySplice_eq m hvalid v
  case isFalse => rfl

end

/-- However a map is made, the splices of arrays come to its entries. -/
theorem Script.runBySplices_eq (x : Script V) :
    x.runBySplices = x.run.map (·.entries.toArray) := by
  induction x with
  | empty => rfl
  | fill x start stop v ih =>
    rw [runBySplices, ih, run]
    cases x.run with
    | error f => rfl
    | ok m => exact Edit.map_applyOver fun r => rfl
  | fillSet x s v ih =>
    rw [runBySplices, ih, run]
    cases x.run with
    | error f => rfl
    | ok m => exact foldlM_assignBySplice_eq m (fun r => s.valid_of_mem_spans) v
  | clear x start stop ih =>
    rw [runBySplices, ih, run]
    cases x.run with
    | error f => rfl
    | ok m => exact Edit.map_applyOver fun r => rfl
  | filterMap x f ih =>
    rw [runBySplices, ih, run]
    cases x.run with
    | error f => rfl
    | ok m => exact congrArg Except.ok (imagesFrom_entries f m)

end PatternAutomata.PointMap
