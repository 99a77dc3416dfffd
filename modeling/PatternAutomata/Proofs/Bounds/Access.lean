import PatternAutomata.Point
import Mathlib.Data.List.TakeWhile
import Mathlib.Data.Nat.Notation

/-!
Checked access. The algorithms read arrays with a default for what lies outside, and drop writes
that fall there. Here are reads and writes that are faults instead; a stage that is put together
from them and never fails has stayed inside. An ordered array is searched by halves, and a window of
it is replaced as a whole.
-/

set_option autoImplicit false

namespace PatternAutomata

/-- How a checked stage ends early: by a fault, or with an error that is a normal answer. -/
inductive Failure (ε : Type)
  | fault (f : Fault)
  | refused (e : ε)
  deriving DecidableEq

def Failure.map {ε ε' : Type} (f : ε → ε') : Failure ε → Failure ε'
  | fault e => fault e
  | refused e => refused (f e)

theorem mapError_refused {ε ε' α : Type} (f : ε → ε') (x : Except ε α) :
    (x.mapError Failure.refused).mapError (Failure.map f) = (x.mapError f).mapError .refused := by
  cases x <;> rfl

namespace Fault

variable {α β : Type}

def read (xs : Array α) (i : ℕ) : Except Fault α :=
  match xs[i]? with
  | some x => .ok x
  | none => .error .outOfRange

def write (xs : Array α) (i : ℕ) (x : α) : Except Fault (Array α) :=
  if i < xs.size then .ok (xs.setIfInBounds i x) else .error .outOfRange

theorem read_eq_ok {xs : Array α} {i : ℕ} {x : α} : read xs i = .ok x ↔ xs[i]? = some x := by
  rw [read]
  cases xs[i]? with
  | none => exact ⟨fun h => (by cases h), fun h => (by cases h)⟩
  | some y =>
    exact ⟨fun h => congrArg some (Except.ok.inj h),
      fun h => congrArg Except.ok (Option.some.inj h)⟩

theorem read_of_lt {xs : Array α} {i : ℕ} (h : i < xs.size) : read xs i = .ok xs[i] :=
  read_eq_ok.2 (Array.getElem?_eq_getElem h)

def view (f : α → β) (xs : Array α) (i : ℕ) : Except Fault β := (read xs i).map f

theorem view_of_lt (f : α → β) {xs : Array α} {i : ℕ} (h : i < xs.size) :
    view f xs i = .ok (f xs[i]) := by
  rw [view, read_of_lt h]
  rfl

theorem write_of_lt {xs : Array α} {i : ℕ} (h : i < xs.size) (x : α) :
    write xs i x = .ok (xs.setIfInBounds i x) := if_pos h

/-- Steps that all succeed do what they do without checks, as long as they keep to an invariant. -/
theorem foldlM_eq_ok {f : β → α → Except Fault β} {g : β → α → β} {P : β → Prop} {xs : List α}
    (h : ∀ s, P s → ∀ x ∈ xs, f s x = .ok (g s x) ∧ P (g s x)) {s : β} (hs : P s) :
    xs.foldlM f s = .ok (xs.foldl g s) ∧ P (xs.foldl g s) := by
  induction xs generalizing s with
  | nil => exact ⟨rfl, hs⟩
  | cons x xs ih =>
    obtain ⟨hstep, hinv⟩ := h s hs x List.mem_cons_self
    rw [List.foldlM_cons, bind_of_ok hstep]
    exact ih (fun s hs x hx => h s hs x (List.mem_cons_of_mem _ hx)) hinv

theorem mapM_eq_filterMap {f : α → Except Fault β} {g : α → Option β} {xs : List α}
    (h : ∀ x ∈ xs, ∃ y, f x = .ok y ∧ g x = some y) : xs.mapM f = .ok (xs.filterMap g) := by
  induction xs with
  | nil => rfl
  | cons x xs ih =>
    obtain ⟨y, hf, hg⟩ := h x List.mem_cons_self
    rw [List.mapM_cons, bind_of_ok hf, bind_of_ok (ih fun x hx => h x (List.mem_cons_of_mem _ hx)),
      List.filterMap_cons_some hg]
    rfl

theorem mapM_eq_ok {f : α → Except Fault β} {g : α → β} {xs : List α}
    (h : ∀ x ∈ xs, f x = .ok (g x)) : xs.mapM f = .ok (xs.map g) := by
  rw [mapM_eq_filterMap fun x hx => ⟨g x, h x hx, rfl⟩, List.filterMap_eq_map']

theorem exists_mapM_read {xs : Array α} {is : List ℕ} (h : ∀ i ∈ is, i < xs.size) :
    ∃ ys, is.mapM (read xs) = .ok ys := by
  induction is with
  | nil => exact ⟨[], rfl⟩
  | cons i is ih =>
    obtain ⟨ys, hys⟩ := ih fun i hi => h i (List.mem_cons_of_mem _ hi)
    have hi := h i List.mem_cons_self
    refine ⟨xs[i] :: ys, ?_⟩
    rw [List.mapM_cons, bind_of_ok (read_of_lt hi), bind_of_ok hys]
    rfl

def select (test : α → Except Fault Bool) : List α → Except Fault (List α)
  | [] => .ok []
  | x :: xs => do
    let keep ← test x
    let rest ← select test xs
    return if keep then x :: rest else rest

theorem select_eq_ok {test : α → Except Fault Bool} {plain : α → Bool} {xs : List α}
    (h : ∀ x ∈ xs, test x = .ok (plain x)) : select test xs = .ok (xs.filter plain) := by
  induction xs with
  | nil => rfl
  | cons x xs ih =>
    rw [select, bind_of_ok (h x List.mem_cons_self),
      bind_of_ok (ih fun x hx => h x (List.mem_cons_of_mem _ hx)), List.filter_cons]
    rfl

/-! ### Windows -/

/-- The index of the first element that fails the test, where those that pass come before those that
fail. Half of the elements from `lo` to below `hi` is dropped in each round. -/
def partitionPoint (test : α → Bool) (xs : Array α) (lo hi : ℕ) : Except Fault ℕ :=
  if lo < hi then do
    let x ← read xs ((lo + hi) / 2)
    if test x then partitionPoint test xs ((lo + hi) / 2 + 1) hi
    else partitionPoint test xs lo ((lo + hi) / 2)
  else return lo
termination_by hi - lo

/-- Puts `new` in place of the elements from `lo` to below `hi`. -/
def splice (xs : Array α) (lo hi : ℕ) (new : List α) : Except Fault (Array α) :=
  if lo ≤ hi ∧ hi ≤ xs.size then .ok (xs.toList.take lo ++ (new ++ xs.toList.drop hi)).toArray
  else .error .outOfRange

theorem partitionPoint_eq {test : α → Bool} {xs ys : List α} (hxs : ∀ x ∈ xs, test x = true)
    (hys : ∀ y ∈ ys, test y = false) {lo hi : ℕ} (hlo : lo ≤ xs.length) (hhi : xs.length ≤ hi)
    (hsize : hi ≤ (xs ++ ys).length) :
    partitionPoint test (xs ++ ys).toArray lo hi = .ok xs.length := by
  induction hn : hi - lo using Nat.strong_induction_on generalizing lo hi with
  | _ n ih =>
    rw [partitionPoint]
    split
    case isTrue hlt =>
      have hmid : (lo + hi) / 2 < (xs ++ ys).length := by omega
      rw [bind_of_ok (read_of_lt hmid), List.getElem_toArray]
      by_cases hleft : (lo + hi) / 2 < xs.length
      · rw [List.getElem_append_left hleft, if_pos (hxs _ (List.getElem_mem hleft))]
        exact ih _ (by omega) (by omega) hhi hsize rfl
      · have hright : (lo + hi) / 2 - xs.length < ys.length := by
          rw [List.length_append] at hmid
          omega
        rw [List.getElem_append_right (by omega), hys _ (List.getElem_mem hright),
          if_neg Bool.false_ne_true]
        exact ih _ (by omega) hlo (by omega) (by omega) rfl
    case isFalse hge =>
      obtain rfl : lo = xs.length := by omega
      rfl

theorem splice_eq (xs window ys new : List α) :
    splice (xs ++ (window ++ ys)).toArray xs.length (xs ++ window).length new =
      .ok (xs ++ (new ++ ys)).toArray := by
  rw [splice, if_pos]
  · have hdrop : (xs ++ (window ++ ys)).drop (xs ++ window).length = ys := by
      rw [← List.append_assoc, List.drop_left]
    rw [List.take_left, hdrop]
  · simp only [List.size_toArray, List.length_append]
    omega

/-- What comes before a window of a list, what is in it, and what comes after it, where two tests
say what the window follows and what it reaches to. -/
structure IsWindow (passed reached : α → Bool) (xs before window after : List α) : Prop where
  eq : xs = before ++ (window ++ after)
  behind : ∀ x ∈ before, passed x = true
  inside : ∀ x ∈ window, passed x = false ∧ reached x = true
  beyond : ∀ x ∈ after, reached x = false
  low : partitionPoint passed xs.toArray 0 xs.length = .ok before.length
  high : partitionPoint reached xs.toArray 0 xs.length = .ok (before ++ window).length

theorem forall_of_dropWhile (test : α → Bool) {xs : List α}
    (h : xs.Pairwise fun x y => test y = true → test x = true) :
    ∀ x ∈ xs.dropWhile test, test x = false := by
  induction xs with
  | nil => exact fun _ hx => absurd hx List.not_mem_nil
  | cons x xs ih =>
    obtain ⟨hx, hrest⟩ := List.pairwise_cons.1 h
    cases htest : test x with
    | true =>
      rw [List.dropWhile_cons_of_pos htest]
      exact ih hrest
    | false =>
      rw [List.dropWhile_cons_of_neg (by rw [htest]; exact Bool.false_ne_true)]
      intro y hy
      rcases List.mem_cons.1 hy with rfl | hy
      · exact htest
      · exact Bool.eq_false_iff.2 fun hpass => by cases htest.symm.trans (hx y hy hpass)

theorem takeWhile_append_eq {test : α → Bool} {xs ys : List α} (hxs : ∀ x ∈ xs, test x = true)
    (hys : ∀ y ∈ ys, test y = false) : (xs ++ ys).takeWhile test = xs := by
  rw [List.takeWhile_append_of_pos hxs]
  cases ys with
  | nil => exact List.append_nil xs
  | cons y ys =>
    rw [List.takeWhile_cons_of_neg (Bool.eq_false_iff.1 (hys y List.mem_cons_self)),
      List.append_nil]

theorem dropWhile_append_eq {test : α → Bool} {xs ys : List α} (hxs : ∀ x ∈ xs, test x = true)
    (hys : ∀ y ∈ ys, test y = false) : (xs ++ ys).dropWhile test = ys := by
  rw [List.dropWhile_append_of_pos hxs]
  cases ys with
  | nil => rfl
  | cons y ys =>
    exact List.dropWhile_cons_of_neg (Bool.eq_false_iff.1 (hys y List.mem_cons_self))

theorem partitionPoint_of_pairwise {test : α → Bool} {xs : List α}
    (h : xs.Pairwise fun x y => test y = true → test x = true) :
    partitionPoint test xs.toArray 0 xs.length = .ok (xs.takeWhile test).length := by
  have hsplit := List.takeWhile_append_dropWhile (p := test) (l := xs)
  have hlength : (xs.takeWhile test).length ≤ xs.length :=
    (List.takeWhile_sublist test).length_le
  have hpoint : partitionPoint test (xs.takeWhile test ++ xs.dropWhile test).toArray 0 xs.length =
      .ok (xs.takeWhile test).length :=
    partitionPoint_eq (fun _ => List.mem_takeWhile_imp) (forall_of_dropWhile test h)
      (Nat.zero_le _) hlength (by rw [hsplit])
  rwa [hsplit] at hpoint

theorem exists_partition (test : α → Bool) {xs : List α}
    (h : xs.Pairwise fun x y => test y = true → test x = true) :
    ∃ before after, xs = before ++ after ∧ (∀ x ∈ before, test x = true) ∧
      (∀ x ∈ after, test x = false) ∧
      partitionPoint test xs.toArray 0 xs.length = .ok before.length :=
  ⟨xs.takeWhile test, xs.dropWhile test, List.takeWhile_append_dropWhile.symm,
    fun _ => List.mem_takeWhile_imp, forall_of_dropWhile test h,
    partitionPoint_of_pairwise h⟩

theorem exists_isWindow (passed reached : α → Bool) {xs : List α}
    (hpassed : xs.Pairwise fun x y => passed y = true → passed x = true)
    (hreached : xs.Pairwise fun x y => reached y = true → reached x = true)
    (himp : ∀ x ∈ xs, passed x = true → reached x = true) :
    ∃ before window after, IsWindow passed reached xs before window after := by
  have hsplit := List.takeWhile_append_dropWhile (p := passed) (l := xs)
  have hsplit' := List.takeWhile_append_dropWhile (p := reached) (l := xs.dropWhile passed)
  have hbefore : ∀ x ∈ xs.takeWhile passed, passed x = true := fun x => List.mem_takeWhile_imp
  have hrest := hreached.sublist (List.dropWhile_sublist passed)
  have htake : xs.takeWhile reached =
      xs.takeWhile passed ++ (xs.dropWhile passed).takeWhile reached := by
    rw [← List.takeWhile_append_of_pos fun x hx =>
      himp x (List.takeWhile_subset _ hx) (hbefore x hx), hsplit]
  refine ⟨xs.takeWhile passed, (xs.dropWhile passed).takeWhile reached,
    (xs.dropWhile passed).dropWhile reached, ?_, hbefore, fun x hx => ⟨?_, ?_⟩, ?_, ?_, ?_⟩
  · rw [hsplit', hsplit]
  · exact forall_of_dropWhile passed hpassed x (List.takeWhile_subset _ hx)
  · exact List.mem_takeWhile_imp hx
  · exact forall_of_dropWhile reached hrest
  · exact partitionPoint_of_pairwise hpassed
  · rw [← htake]
    exact partitionPoint_of_pairwise hreached

theorem read_head {before window after : List α} (h : window ≠ []) :
    read (before ++ (window ++ after)).toArray before.length = .ok (window.head h) := by
  rw [read_eq_ok, List.getElem?_toArray, List.getElem?_append_right le_rfl, Nat.sub_self,
    List.getElem?_append_left (List.length_pos_iff.2 h), List.head_eq_getElem,
    List.getElem?_eq_getElem]

theorem read_getLast {before window after : List α} (h : window ≠ []) :
    read (before ++ (window ++ after)).toArray ((before ++ window).length - 1) =
      .ok (window.getLast h) := by
  have hpos := List.length_pos_iff.2 h
  rw [read_eq_ok, List.getElem?_toArray, List.getElem?_append_right, List.getElem?_append_left,
    List.getLast_eq_getElem, List.getElem?_eq_some_iff]
  · refine ⟨?_, ?_⟩
    · rw [List.length_append]
      omega
    · congr 1
      rw [List.length_append]
      omega
  · rw [List.length_append]
    omega
  · rw [List.length_append]
    omega

end Fault

end PatternAutomata
