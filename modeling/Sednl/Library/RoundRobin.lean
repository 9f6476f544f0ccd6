import Sednl.Library.Transition

/-!
# Queues served in turn

Elements wait in a queue, each of them once.  One joins at the end and may be
withdrawn from anywhere; a turn serves, from the front, those that still want it.
`Within` counts the elements that wait before another, which each turn lowers and
nothing raises, so that nothing waits for ever.
-/

namespace Sednl.RoundRobin

open Sednl.Transition

variable {α : Type} {queue : List α} {x y : α} {wants : α → Bool} {n k : ℕ}

/-- A turn of at most `k`: those served, and the queue after it. -/
def turn (wants : α → Bool) : (k : ℕ) → List α → List α × List α
  | _, [] => ([], [])
  | 0, queue => ([], queue)
  | k + 1, x :: queue =>
      if wants x then (x :: (turn wants k queue).1, (turn wants k queue).2)
      else turn wants (k + 1) queue

theorem turn_zero (wants : α → Bool) (queue : List α) : turn wants 0 queue = ([], queue) := by
  cases queue <;> rfl

theorem turn_served (wants : α → Bool) (k : ℕ) (queue : List α) :
    (turn wants k queue).1.Sublist queue ∧
      ∀ y ∈ (turn wants k queue).1, wants y = true := by
  induction queue generalizing k with
  | nil => cases k <;> exact ⟨List.Sublist.refl [], fun _ h => absurd h List.not_mem_nil⟩
  | cons x queue ih =>
      cases k with
      | zero => exact ⟨List.nil_sublist _, fun _ h => absurd h List.not_mem_nil⟩
      | succ k =>
          rw [turn]
          split
          · rename_i hwants
            exact ⟨(ih k).1.cons_cons x, fun y hy => (List.mem_cons.mp hy).elim
              (fun heq => heq ▸ hwants) ((ih k).2 y)⟩
          · exact ⟨(ih (k + 1)).1.cons x, (ih (k + 1)).2⟩

theorem length_turn_le (wants : α → Bool) (k : ℕ) (queue : List α) :
    (turn wants k queue).1.length ≤ k := by
  induction queue generalizing k with
  | nil => cases k <;> exact Nat.zero_le _
  | cons x queue ih =>
      cases k with
      | zero => exact Nat.le_refl 0
      | succ k =>
          rw [turn]
          split
          · exact Nat.succ_le_succ (ih k)
          · exact ih (k + 1)

theorem turn_suffix (wants : α → Bool) (k : ℕ) (queue : List α) :
    (turn wants k queue).2 <:+ queue := by
  induction queue generalizing k with
  | nil => cases k <;> exact List.suffix_refl []
  | cons x queue ih =>
      cases k with
      | zero => exact List.suffix_refl _
      | succ k =>
          rw [turn]
          split
          · exact (ih k).trans (List.suffix_cons x queue)
          · exact (ih (k + 1)).trans (List.suffix_cons x queue)

/-- At most `n` elements wait before `x`. -/
def Within (n : ℕ) (queue : List α) (x : α) : Prop :=
  ∃ front back, queue = front ++ x :: back ∧ front.length ≤ n

theorem within_of_mem (hmem : x ∈ queue) : Within (queue.length - 1) queue x := by
  obtain ⟨front, back, rfl⟩ := List.append_of_mem hmem
  refine ⟨front, back, rfl, ?_⟩
  rw [List.length_append, List.length_cons]
  omega

theorem Within.mem (hwithin : Within n queue x) : x ∈ queue := by
  obtain ⟨front, back, rfl, -⟩ := hwithin
  exact List.mem_append_right front List.mem_cons_self

/-- A turn serves an element or brings it nearer. -/
theorem Within.turn (hwithin : Within n queue x) (hwants : wants x = true) (k : ℕ) :
    x ∈ (turn wants k queue).1 ∨
      k ≤ n ∧ Within (n - k) (turn wants k queue).2 x := by
  obtain ⟨front, back, rfl, hlength⟩ := hwithin
  induction front generalizing k n with
  | nil =>
      cases k with
      | zero => exact .inr ⟨n.zero_le, [], back, by rw [turn_zero], Nat.zero_le _⟩
      | succ k =>
          rw [List.nil_append, RoundRobin.turn, if_pos hwants]
          exact .inl List.mem_cons_self
  | cons first front ih =>
      rw [List.length_cons] at hlength
      cases k with
      | zero =>
          refine .inr ⟨n.zero_le, first :: front, back, by rw [turn_zero], ?_⟩
          rwa [List.length_cons, Nat.sub_zero]
      | succ k =>
          rw [List.cons_append, RoundRobin.turn]
          split
          · obtain hserved | ⟨hle, hnear⟩ := ih k (show front.length ≤ n - 1 by omega)
            · exact .inl (List.mem_cons_of_mem first hserved)
            · exact .inr ⟨by omega, by rwa [show n - (k + 1) = n - 1 - k by omega]⟩
          · exact ih (k + 1) (show front.length ≤ n by omega)

section Queue

variable [DecidableEq α]

/-- `x` joins the queue unless it waits already. -/
def join (queue : List α) (x : α) : List α :=
  if x ∈ queue then queue else queue ++ [x]

def withdraw (queue : List α) (x : α) : List α :=
  queue.filter (· ≠ x)

@[simp]
theorem mem_join : y ∈ join queue x ↔ y ∈ queue ∨ y = x := by
  rw [join]
  by_cases hmem : x ∈ queue
  · rw [if_pos hmem]
    exact ⟨Or.inl, fun h => h.elim id fun heq => heq ▸ hmem⟩
  · rw [if_neg hmem, List.mem_append, List.mem_singleton]

@[simp]
theorem mem_withdraw : y ∈ withdraw queue x ↔ y ∈ queue ∧ y ≠ x := by
  rw [withdraw, List.mem_filter, decide_eq_true_iff]

theorem nodup_join (hnodup : queue.Nodup) (x : α) : (join queue x).Nodup := by
  rw [join]
  by_cases hmem : x ∈ queue
  · rwa [if_pos hmem]
  · rw [if_neg hmem]
    exact List.nodup_append.mpr ⟨hnodup, List.nodup_singleton x, fun a ha b hb heq =>
      hmem (List.mem_singleton.mp hb ▸ heq ▸ ha)⟩

theorem nodup_withdraw (hnodup : queue.Nodup) (x : α) : (withdraw queue x).Nodup :=
  hnodup.filter _

theorem within_iff : Within n queue x ↔ x ∈ queue ∧ queue.idxOf x ≤ n := by
  constructor
  · rintro ⟨front, back, rfl, hlength⟩
    refine ⟨List.mem_append_right front List.mem_cons_self, ?_⟩
    rw [List.idxOf_append]
    split
    · rename_i hmem
      have hless := List.idxOf_lt_length_of_mem hmem
      omega
    · rw [List.idxOf_cons_self, Nat.zero_add]
      exact hlength
  · rintro ⟨hmem, hle⟩
    have hless := List.idxOf_lt_length_of_mem hmem
    refine ⟨queue.take (queue.idxOf x), queue.drop (queue.idxOf x + 1), ?_,
      (List.length_take_le _ _).trans hle⟩
    have hdrop := List.drop_eq_getElem_cons hless
    rw [List.getElem_idxOf hless] at hdrop
    rw [← hdrop, List.take_append_drop]

theorem Within.join (hwithin : Within n queue x) (y : α) : Within n (join queue y) x := by
  rw [RoundRobin.join]
  split
  · exact hwithin
  · obtain ⟨front, back, rfl, hlength⟩ := hwithin
    exact ⟨front, back ++ [y], by rw [List.append_assoc, List.cons_append], hlength⟩

theorem Within.withdraw (hwithin : Within n queue x) (hne : x ≠ y) :
    Within n (withdraw queue y) x := by
  obtain ⟨front, back, rfl, hlength⟩ := hwithin
  refine ⟨front.filter (· ≠ y), back.filter (· ≠ y), ?_,
    (List.length_filter_le _ _).trans hlength⟩
  rw [RoundRobin.withdraw, List.filter_append, List.filter_cons_of_pos (by simpa using hne)]

end Queue

/-! ## Runs with turns -/

variable {σ β : Type} {step : σ → β → Option σ} {goal : σ → Prop} {Near : ℕ → σ → Prop}
variable {turns : β → Bool}

/-- Where each turn lowers a distance by `k` and no step raises it, the goal is met
before the turns have made up for the distance. -/
theorem exists_goal_of_turns
    (hstep : ∀ {n state action next}, Near n state → step state action = some next →
      goal next ∨ if turns action then k ≤ n ∧ Near (n - k) next else Near n next)
    {state last : σ} {actions : List β} (hnear : Near n state)
    (hrun : run step state actions = some last) (hmany : n < k * actions.countP turns) :
    ∃ front mid, front <+: actions ∧ run step state front = some mid ∧ goal mid := by
  induction actions generalizing n state with
  | nil =>
      rw [List.countP_nil, Nat.mul_zero] at hmany
      exact absurd hmany (Nat.not_lt_zero n)
  | cons action actions ih =>
      obtain ⟨next, hnext, hrest⟩ := run_cons_eq_some hrun
      obtain hgoal | hnearer := hstep hnear hnext
      · exact ⟨[action], next, ⟨actions, rfl⟩, (run_cons hnext []).trans rfl, hgoal⟩
      have hlater : ∃ m, Near m next ∧ m < k * actions.countP turns := by
        by_cases hturn : turns action = true
        · rw [if_pos hturn] at hnearer
          rw [List.countP_cons_of_pos hturn, Nat.mul_add_one] at hmany
          exact ⟨n - k, hnearer.2, by omega⟩
        · rw [if_neg hturn] at hnearer
          rw [List.countP_cons_of_neg hturn] at hmany
          exact ⟨n, hnearer, hmany⟩
      obtain ⟨m, hm, hless⟩ := hlater
      obtain ⟨front, mid, hfront, hmid, hgoal⟩ := ih hm hrest hless
      exact ⟨action :: front, mid, List.prefix_cons_inj action |>.mpr hfront,
        (run_cons hnext front).trans hmid, hgoal⟩

end Sednl.RoundRobin
