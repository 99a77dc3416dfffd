import PatternAutomata.Proofs.Fragment

/-!
What building an automaton takes up. A pattern whose repetitions are the right way round takes up
its states, and that can fail only for want of room; so where one copy can be taken, the others are
taken as it was.
-/

set_option autoImplicit false

namespace PatternAutomata.Nfa

theorem take_zero {limit used : ℕ} (h : used ≤ limit) : take limit used 0 = .ok used := if_pos h

theorem take_add (limit used m k : ℕ) :
    take limit used (m + k) = take limit used m >>= fun u => take limit u k := by
  rw [take]
  by_cases hm : used + m ≤ limit
  · rw [take, if_pos hm, bind_of_ok rfl, take, Nat.add_assoc]
  · rw [take, if_neg hm, if_neg (by omega)]
    rfl

theorem take_bind {limit used m : ℕ} {α : Type} {f g : ℕ → Except BuildError α}
    (h : used + m ≤ limit → f (used + m) = g (used + m)) :
    take limit used m >>= f = take limit used m >>= g := by
  rw [take]
  split
  case isTrue hle => exact h hle
  case isFalse => rfl

theorem takeCopies_of_take {limit size count used : ℕ} {copy : ℕ → Except BuildError ℕ}
    (h : 0 < count → copy used = take limit used size) (hused : used ≤ limit) :
    takeCopies limit copy count used = take limit used (count * size) := by
  cases count with
  | zero => rw [takeCopies, if_pos rfl, Nat.zero_mul, take_zero hused]
  | succ count =>
    rw [takeCopies, if_neg (Nat.succ_ne_zero count), h (Nat.succ_pos count), Nat.succ_mul,
      Nat.add_comm (count * size), take_add]
    exact take_bind fun _ => by rw [Nat.add_sub_cancel_left, Nat.add_sub_cancel]

theorem reserve_repeated {limit used min : ℕ} {n : Node} {max : Option ℕ} {lazily : Bool} :
    reserve limit (.repeated n min max lazily) used =
      BuildError.ofCounts min max >>= fun _ =>
        (if min = 0 then take limit used 1 else takeCopies limit (reserve limit n) min used) >>=
          fun used => take limit used 1 >>=
            fun used => takeCopies limit (reserve limit n) (optionalCopies min max) used := by
  rw [reserve]
  split <;> rfl

mutual

/-- A pattern without a repetition that ends before it begins takes up its states, and can fail
only for want of them. -/
theorem reserve_of_counted {limit : ℕ} : (n : Node) → Counted n → {used : ℕ} → used ≤ limit →
    reserve limit n used = take limit used (stateCount n)
  | .empty, _, _, _ => by rw [reserve, stateCount]
  | .endOfInput, _, _, _ => by rw [reserve, stateCount]
  | .text _, _, _, _ => by rw [reserve, stateCount]
  | .set _, _, _, _ => by rw [reserve, stateCount]
  | .concat [], _, _, _ => by rw [reserve, stateCount]
  | .concat (n :: ns), hc, _, h => by
    rw [Counted] at hc
    rw [reserve, stateCount, reserveAll_of_counted (n :: ns) hc h]
  | .oneOf a b, hc, used, h => by
    rw [Counted] at hc
    rw [reserve, stateCount, show stateCount a + stateCount b + 2 =
      1 + (stateCount a + (stateCount b + 1)) by omega, take_add]
    refine take_bind fun h1 => ?_
    rw [reserve_of_counted a hc.1 h1, take_add]
    refine take_bind fun h2 => ?_
    rw [reserve_of_counted b hc.2 h2, take_add]
  | .repeated n min max lazily, hc, used, h => by
    rw [Counted] at hc
    have hcounts : BuildError.ofCounts min max = .ok () := by
      cases max with
      | none => rfl
      | some m => rw [BuildError.ofCounts, if_neg (Nat.not_lt_of_le (hc.1 m rfl))]
    have hmandatory : (if min = 0 then take limit used 1
        else takeCopies limit (reserve limit n) min used) =
        take limit used (copiesCount (stateCount n) min) := by
      rw [copiesCount]
      split
      case isTrue => rfl
      case isFalse h0 =>
        have hn := hc.2 (.inl (Nat.pos_of_ne_zero h0))
        exact takeCopies_of_take (fun _ => reserve_of_counted n hn h) h
    rw [reserve_repeated, bind_of_ok hcounts, hmandatory, stateCount, Nat.add_assoc, take_add]
    refine take_bind fun _ => ?_
    rw [take_add]
    exact take_bind fun h2 =>
      takeCopies_of_take (fun h0 => reserve_of_counted n (hc.2 (.inr h0)) h2) h2
  | .group _ n, hc, _, _ => by
    rw [Counted] at hc
    rw [reserve, stateCount, show stateCount n + 2 = 1 + (stateCount n + 1) by omega, take_add]
    refine take_bind fun h1 => ?_
    rw [reserve_of_counted n hc h1, take_add]

theorem reserveAll_of_counted {limit : ℕ} : (ns : List Node) → CountedAll ns → {used : ℕ} →
    used ≤ limit → reserveAll limit ns used = take limit used (stateCountAll ns)
  | [], _, _, h => by rw [reserveAll, stateCountAll, take_zero h]
  | n :: ns, hc, _, h => by
    rw [CountedAll] at hc
    rw [reserveAll, stateCountAll, reserve_of_counted n hc.1 h, take_add]
    exact take_bind fun h1 => reserveAll_of_counted ns hc.2 h1

end

theorem stateCountAll_replicate (n : Node) (count : ℕ) :
    stateCountAll (List.replicate count n) = count * stateCount n := by
  induction count with
  | zero => rw [List.replicate_zero, stateCountAll, Nat.zero_mul]
  | succ count ih => rw [List.replicate_succ, stateCountAll, ih, Nat.succ_mul, Nat.add_comm]

theorem countedAll_replicate {n : Node} (h : Counted n) (count : ℕ) :
    CountedAll (List.replicate count n) := by
  induction count with
  | zero =>
    rw [List.replicate_zero, CountedAll]
    trivial
  | succ count ih =>
    rw [List.replicate_succ, CountedAll]
    exact ⟨h, ih⟩

theorem takeCopies_eq_reserveAll {limit used : ℕ} (hused : used ≤ limit) (n : Node) (count : ℕ) :
    takeCopies limit (reserve limit n) count used =
      reserveAll limit (List.replicate count n) used := by
  cases count with
  | zero => rw [takeCopies, if_pos rfl, List.replicate_zero, reserveAll]
  | succ count =>
    cases hn : reserve limit n used with
    | error e =>
      rw [takeCopies, if_neg (Nat.succ_ne_zero count), hn, List.replicate_succ, reserveAll, hn]
      rfl
    | ok u =>
      have hc := counted_of_reserve n hn
      rw [takeCopies_of_take (fun _ => reserve_of_counted n hc hused) hused,
        reserveAll_of_counted _ (countedAll_replicate hc _) hused, stateCountAll_replicate]

theorem reserveAll_singleton (limit : ℕ) (n : Node) (used : ℕ) :
    reserveAll limit [n] used = reserve limit n used := by
  have hnil : (fun used => reserveAll limit [] used) = pure := by
    funext used
    rw [reserveAll]
    rfl
  rw [reserveAll, hnil, bind_pure]

/-! ### Mandatory copies as a concatenation -/

theorem reserve_mandatory {limit used : ℕ} (hused : used ≤ limit) (n : Node) (min : ℕ) :
    (if min = 0 then take limit used 1 else takeCopies limit (reserve limit n) min used) =
      reserve limit (.concat (List.replicate min n)) used := by
  cases min with
  | zero => rw [if_pos rfl, List.replicate_zero, reserve]
  | succ min =>
    rw [if_neg (Nat.succ_ne_zero min), takeCopies_eq_reserveAll hused, List.replicate_succ, reserve]

theorem fragmentAll_replicate (n : Node) (reluctant : Bool) (count base : ℕ)
    (out : List Transition) :
    fragmentAll (List.replicate count n) reluctant base out =
      chain (fragment n reluctant) (stateCount n) base count (fun next => [.silent next]) out := by
  induction count generalizing base with
  | zero => rw [List.replicate_zero, fragmentAll, chain_zero]
  | succ count ih =>
    rw [chain_succ, ← ih]
    cases count with
    | zero =>
      rw [List.replicate_zero, fragmentAll, List.append_nil, if_pos rfl]
      rfl
    | succ count =>
      rw [if_neg (Nat.succ_ne_zero count), List.replicate_succ, List.replicate_succ, fragmentAll]

theorem fragment_mandatory (n : Node) (reluctant : Bool) (min base : ℕ) (out : List Transition) :
    fragment (.concat (List.replicate min n)) reluctant base out =
      mandatory (fragment n reluctant) (stateCount n) base min out := by
  cases min with
  | zero => rw [List.replicate_zero, fragment, mandatory, if_pos rfl]
  | succ min =>
    rw [mandatory, if_neg (Nat.succ_ne_zero min), ← fragmentAll_replicate, List.replicate_succ,
      fragment]

end PatternAutomata.Nfa
