import Mathlib.Data.List.Flatten
import Mathlib.Data.List.Range
import Workflow.Poll

/-!
# How polling ends

The moments of all attempts form a schedule.  The poller comes to a moment of it as long as no
attempt before has yielded a value and the cancellation was not seen at a moment before at which
the poller looks for it.  This alone settles which moments the poller comes to and how it ends.
-/

namespace Workflow
namespace Poll

namespace Moment

def Before (m m' : Moment) : Prop :=
  m.attempt < m'.attempt ∨ m.attempt = m'.attempt ∧ m.stage.rank < m'.stage.rank

/-- The moments at which the poller looks for the cancellation: when it calls for an attempt,
while the attempt is in flight, and while it waits for the next one. -/
def Watched (maxAttempts : Nat) (m : Moment) : Prop :=
  1 <= m.attempt ∧
    match m.stage with
    | .start => m.attempt <= maxAttempts
    | .flight => m.attempt <= maxAttempts
    | .answer => False
    | .wait => m.attempt < maxAttempts

/-- The moments of an attempt.  The poller waits after every attempt but the last. -/
def ofAttempt (maxAttempts n : Nat) : List Moment :=
  [⟨n, .start⟩, ⟨n, .flight⟩, ⟨n, .answer⟩] ++ if n < maxAttempts then [⟨n, .wait⟩] else []

/-- The moments of some attempts from one on. -/
def scheduleFrom (maxAttempts n left : Nat) : List Moment :=
  (List.range' n left).flatMap (ofAttempt maxAttempts)

/-- The moments of all attempts. -/
def schedule (maxAttempts : Nat) : List Moment :=
  scheduleFrom maxAttempts 1 maxAttempts

/-- The moment that follows when polling goes on. -/
def next (m : Moment) : Moment :=
  match m.stage with
  | .start => ⟨m.attempt, .flight⟩
  | .flight => ⟨m.attempt, .answer⟩
  | .answer => ⟨m.attempt, .wait⟩
  | .wait => ⟨m.attempt + 1, .start⟩

variable {m m' : Moment} {maxAttempts n left : Nat}

/-!
# The order of moments
-/

theorem before_next_iff : m'.Before m.next <-> m'.Before m ∨ m' = m := by
  rcases m with ⟨n, stage⟩
  rcases m' with ⟨n', stage'⟩
  cases stage <;> cases stage' <;> simp [Before, next, Stage.rank] <;> omega

theorem Before.trans {m'' : Moment} (h : m.Before m') (h' : m'.Before m'') : m.Before m'' := by
  unfold Before at *
  omega

theorem before_or_eq_or_before (m m' : Moment) : m.Before m' ∨ m = m' ∨ m'.Before m := by
  rcases m with ⟨n, stage⟩
  rcases m' with ⟨n', stage'⟩
  cases stage <;> cases stage' <;> simp [Before, Stage.rank] <;> omega

theorem Watched.attempt_le (h : m.Watched maxAttempts) : m.attempt <= maxAttempts := by
  rcases m with ⟨n, stage⟩
  cases stage with
  | start => exact h.2
  | flight => exact h.2
  | answer => exact h.2.elim
  | wait => exact Nat.le_of_lt h.2

/-!
# The schedule
-/

theorem ofAttempt_of_lt (h : n < maxAttempts) :
    ofAttempt maxAttempts n = [⟨n, .start⟩, ⟨n, .flight⟩, ⟨n, .answer⟩, ⟨n, .wait⟩] := by
  rw [ofAttempt, if_pos h]
  rfl

theorem ofAttempt_of_not_lt (h : ¬ n < maxAttempts) :
    ofAttempt maxAttempts n = [⟨n, .start⟩, ⟨n, .flight⟩, ⟨n, .answer⟩] := by
  rw [ofAttempt, if_neg h]
  rfl

theorem attempt_of_mem_ofAttempt (h : m ∈ ofAttempt maxAttempts n) : m.attempt = n := by
  unfold ofAttempt at h
  split at h <;> simp at h
  · rcases h with rfl | rfl | rfl | rfl <;> rfl
  · rcases h with rfl | rfl | rfl <;> rfl

theorem sorted_ofAttempt (maxAttempts n : Nat) : (ofAttempt maxAttempts n).Pairwise Before := by
  unfold ofAttempt
  split <;> simp [Before, Stage.rank]

theorem scheduleFrom_succ (maxAttempts n left : Nat) : scheduleFrom maxAttempts n (left + 1) =
    ofAttempt maxAttempts n ++ scheduleFrom maxAttempts (n + 1) left := by
  rw [scheduleFrom, List.range'_succ, List.flatMap_cons, scheduleFrom]

theorem attempt_of_mem_scheduleFrom (h : m ∈ scheduleFrom maxAttempts n left) :
    n <= m.attempt ∧ m.attempt < n + left := by
  rcases List.mem_flatMap.1 h with ⟨k, hk, hm⟩
  rw [attempt_of_mem_ofAttempt hm]
  exact List.mem_range'_1.1 hk

theorem sorted_scheduleFrom (maxAttempts left : Nat) :
    ∀ n, (scheduleFrom maxAttempts n left).Pairwise Before := by
  induction left with
  | zero => exact fun _ => List.Pairwise.nil
  | succ left ih =>
      intro n
      rw [scheduleFrom_succ]
      refine List.pairwise_append.2 ⟨sorted_ofAttempt maxAttempts n, ih (n + 1), ?_⟩
      intro m hm m' hm'
      have hn := attempt_of_mem_ofAttempt hm
      have hn' := (attempt_of_mem_scheduleFrom hm').1
      exact Or.inl (by omega)

theorem countP_scheduleFrom_le (s : Stage) (maxAttempts left : Nat) :
    ∀ n, (scheduleFrom maxAttempts n left).countP (fun m => m.stage == s) <= left := by
  induction left with
  | zero => exact fun _ => Nat.le_refl 0
  | succ left ih =>
      intro n
      have hone : (ofAttempt maxAttempts n).countP (fun m => m.stage == s) <= 1 := by
        unfold ofAttempt
        split <;> cases s <;> simp
      have hrest := ih (n + 1)
      rw [scheduleFrom_succ, List.countP_append]
      omega

end Moment

open Moment

variable {α : Type} {fetch : Nat -> Option α} {cancel : Option Moment} {maxAttempts : Nat}
  {m m' : Moment}

/-!
# The moments that are reached
-/

/-- Before a moment no attempt has yielded a value and no cancellation was seen. -/
structure Reaches (fetch : Nat -> Option α) (cancel : Option Moment) (maxAttempts : Nat)
    (m : Moment) : Prop where
  nothing : ∀ n, 1 <= n -> Before ⟨n, .answer⟩ m -> fetch n = none
  unseen : ∀ m', m'.Watched maxAttempts -> m'.Before m -> cancelledBy cancel m' = false

theorem reaches_first : Reaches fetch cancel maxAttempts ⟨1, .start⟩ where
  nothing n hn hbefore := by
    simp only [Before, Stage.rank] at hbefore
    omega
  unseen m' hm' hbefore := by
    have hone := hm'.1
    simp only [Before, Stage.rank] at hbefore
    omega

theorem Reaches.of_before (h : Reaches fetch cancel maxAttempts m) (hm : m'.Before m) :
    Reaches fetch cancel maxAttempts m' where
  nothing n hn hbefore := h.nothing n hn (hbefore.trans hm)
  unseen m'' hm'' hbefore := h.unseen m'' hm'' (hbefore.trans hm)

/-- Polling goes on from a moment unless the attempt yields a value then or the cancellation is
seen then. -/
theorem Reaches.next (h : Reaches fetch cancel maxAttempts m)
    (hanswer : m.stage = .answer -> fetch m.attempt = none)
    (hcancel : m.Watched maxAttempts -> cancelledBy cancel m = false) :
    Reaches fetch cancel maxAttempts m.next where
  nothing n hn hbefore := by
    rcases before_next_iff.1 hbefore with hbefore | rfl
    · exact h.nothing n hn hbefore
    · exact hanswer rfl
  unseen m' hm' hbefore := by
    rcases before_next_iff.1 hbefore with hbefore | rfl
    · exact h.unseen m' hm' hbefore
    · exact hcancel hm'

/-!
# The end
-/

/-- What ends polling at a moment: an attempt yields a value, the cancellation is seen, or the
attempts are used up. -/
inductive EndsAt (fetch : Nat -> Option α) (cancel : Option Moment) (maxAttempts : Nat) :
    Moment -> Outcome α -> Prop where
  | value {n : Nat} {a : α} : 1 <= n -> n <= maxAttempts -> fetch n = some a ->
      EndsAt fetch cancel maxAttempts ⟨n, .answer⟩ (.value a)
  | cancelled {m : Moment} : m.Watched maxAttempts -> cancelledBy cancel m = true ->
      EndsAt fetch cancel maxAttempts m .cancelled
  | exhausted : EndsAt fetch cancel maxAttempts ⟨maxAttempts + 1, .start⟩ (.exhausted maxAttempts)

namespace EndsAt

variable {o o' : Outcome α}

theorem not_after (h : EndsAt fetch cancel maxAttempts m o) :
    ¬ Before ⟨maxAttempts + 1, .start⟩ m := by
  intro hafter
  cases h with
  | value _ hle _ =>
      simp only [Before] at hafter
      omega
  | cancelled hwatched _ =>
      have hle := hwatched.attempt_le
      simp only [Before] at hafter
      omega
  | exhausted =>
      simp only [Before] at hafter
      omega

theorem not_reaches (h : EndsAt fetch cancel maxAttempts m o) (hm : m.Before m')
    (hlast : ¬ Before ⟨maxAttempts + 1, .start⟩ m') : ¬ Reaches fetch cancel maxAttempts m' := by
  intro hreaches
  cases h with
  | value hone _ hvalue =>
      have hnone := hreaches.nothing _ hone hm
      rw [hvalue] at hnone
      cases hnone
  | cancelled hwatched hseen =>
      rw [hreaches.unseen m hwatched hm] at hseen
      cases hseen
  | exhausted => exact hlast hm

theorem unique (h : EndsAt fetch cancel maxAttempts m o)
    (h' : EndsAt fetch cancel maxAttempts m' o') (hm : Reaches fetch cancel maxAttempts m)
    (hm' : Reaches fetch cancel maxAttempts m') : o = o' := by
  rcases before_or_eq_or_before m m' with hbefore | rfl | hbefore
  · exact absurd hm' (h.not_reaches hbefore h'.not_after)
  · cases h with
    | value _ hle hvalue =>
        cases h' with
        | value _ _ hvalue' => exact congrArg Outcome.value (Option.some.inj (hvalue ▸ hvalue'))
        | cancelled hwatched _ => exact hwatched.2.elim
    | cancelled hwatched _ =>
        cases h' with
        | value _ _ _ => exact hwatched.2.elim
        | cancelled _ _ => rfl
        | exhausted => exact absurd hwatched.attempt_le (Nat.not_succ_le_self _)
    | exhausted =>
        cases h' with
        | cancelled hwatched _ => exact absurd hwatched.attempt_le (Nat.not_succ_le_self _)
        | exhausted => rfl
  · exact absurd hm (h'.not_reaches hbefore h.not_after)

end EndsAt

/-!
# Results
-/

/-- What the poller makes of the moments that lie ahead. -/
structure Tells (fetch : Nat -> Option α) (cancel : Option Moment) (maxAttempts : Nat)
    (ahead : List Moment) (r : Result α) : Prop where
  begins : r.log <+: ahead
  mem_log : ∀ m ∈ ahead, m ∈ r.log <-> Reaches fetch cancel maxAttempts m
  ends : ∃ m, Reaches fetch cancel maxAttempts m ∧ EndsAt fetch cancel maxAttempts m r.outcome

namespace Tells

variable {ahead : List Moment} {r : Result α} {o : Outcome α}

theorem stop {n left : Nat} (hsum : n + left = maxAttempts) (before : List Moment)
    {after : List Moment}
    (hsplit : ofAttempt maxAttempts n = before ++ m :: after)
    (hm : Reaches fetch cancel maxAttempts m) (hend : EndsAt fetch cancel maxAttempts m o) :
    Tells fetch cancel maxAttempts (scheduleFrom maxAttempts n (left + 1))
      ⟨o, before ++ [m]⟩ := by
  have hsorted := sorted_scheduleFrom maxAttempts (left + 1) n
  have hahead : scheduleFrom maxAttempts n (left + 1) =
      before ++ m :: (after ++ scheduleFrom maxAttempts (n + 1) left) := by
    rw [scheduleFrom_succ, hsplit, List.append_assoc, List.cons_append]
  constructor
  case begins =>
    rw [hahead]
    exact ⟨_, (List.append_cons before m _).symm⟩
  case mem_log =>
    intro m' hm'
    have hlast := (attempt_of_mem_scheduleFrom hm').2
    rw [hahead] at hsorted hm'
    rcases List.pairwise_append.1 hsorted with ⟨-, hrest, hbefore⟩
    constructor
    · intro hlog
      rcases List.mem_append.1 hlog with hlog | hlog
      · exact hm.of_before (hbefore m' hlog m List.mem_cons_self)
      · rw [List.mem_singleton.1 hlog]
        exact hm
    · intro hreaches
      rw [List.append_cons] at hm'
      rcases List.mem_append.1 hm' with hlog | hafter
      · exact hlog
      · have hmm' := (List.pairwise_cons.1 hrest).1 m' hafter
        refine absurd hreaches (hend.not_reaches hmm' ?_)
        simp only [Before]
        omega
  case ends => exact ⟨m, hm, hend⟩

theorem past {n left : Nat} {log : List Moment} (hlog : ofAttempt maxAttempts n = log)
    (hwait : Reaches fetch cancel maxAttempts ⟨n, .wait⟩)
    (h : Tells fetch cancel maxAttempts (scheduleFrom maxAttempts (n + 1) left) r) :
    Tells fetch cancel maxAttempts (scheduleFrom maxAttempts n (left + 1)) (r.after log) := by
  have hreached : ∀ m ∈ log, Reaches fetch cancel maxAttempts m := by
    intro m hm
    have hattempt := attempt_of_mem_ofAttempt (hlog ▸ hm)
    rcases m with ⟨k, stage⟩
    cases hattempt
    have hrank : stage = .wait ∨ stage.rank < Stage.wait.rank := by
      cases stage <;> decide
    rcases hrank with rfl | hrank
    · exact hwait
    · exact hwait.of_before (Or.inr ⟨rfl, hrank⟩)
  rw [scheduleFrom_succ, hlog]
  constructor
  case begins => exact (List.prefix_append_right_inj log).2 h.begins
  case mem_log =>
    intro m hm
    rw [Result.after, List.mem_append]
    rcases List.mem_append.1 hm with hm | hm
    · exact iff_of_true (Or.inl hm) (hreached m hm)
    · rw [h.mem_log m hm]
      exact or_iff_right_of_imp (hreached m)
  case ends => exact h.ends

end Tells

/-- The poller goes through the moments that are left of the schedule. -/
theorem tells_goOn (left : Nat) : left <= maxAttempts ->
    Reaches fetch cancel maxAttempts ⟨maxAttempts - left + 1, .start⟩ ->
    Tells fetch cancel maxAttempts (scheduleFrom maxAttempts (maxAttempts - left + 1) left)
      (goOn fetch cancel maxAttempts left) := by
  induction left with
  | zero =>
      intro _ hstart
      exact ⟨List.prefix_rfl, fun m hm => absurd hm List.not_mem_nil, _, hstart, .exhausted⟩
  | succ left ih =>
      intro hle hstart
      have hrest := ih (Nat.le_of_succ_le hle)
      have hone : 1 <= maxAttempts - left := by omega
      have hsum : maxAttempts - left + left = maxAttempts := by omega
      rw [show maxAttempts - (left + 1) + 1 = maxAttempts - left by omega] at hstart ⊢
      rw [goOn]
      generalize maxAttempts - left = n at hrest hone hsum hstart ⊢
      have hn : n <= maxAttempts := by omega
      cases hcalled : cancelledBy cancel ⟨n, .start⟩ with
      | true => exact .stop hsum [] rfl hstart (.cancelled ⟨hone, hn⟩ hcalled)
      | false =>
          have hflight : Reaches fetch cancel maxAttempts ⟨n, .flight⟩ :=
            hstart.next (fun h => nomatch h) fun _ => hcalled
          cases hflown : cancelledBy cancel ⟨n, .flight⟩ with
          | true => exact .stop hsum [_] rfl hflight (.cancelled ⟨hone, hn⟩ hflown)
          | false =>
              have hanswer : Reaches fetch cancel maxAttempts ⟨n, .answer⟩ :=
                hflight.next (fun h => nomatch h) fun _ => hflown
              cases hvalue : fetch n with
              | some a => exact .stop hsum [_, _] rfl hanswer (.value hone hn hvalue)
              | none =>
                  have hwait : Reaches fetch cancel maxAttempts ⟨n, .wait⟩ :=
                    hanswer.next (fun _ => hvalue) fun h => h.2.elim
                  have hnext (hunseen : n < maxAttempts ->
                      cancelledBy cancel ⟨n, .wait⟩ = false) :=
                    hrest (hwait.next (fun h => nomatch h) fun h => hunseen h.2)
                  simp only [Bool.false_eq_true, if_false]
                  split
                  · next hzero =>
                      have hover : ¬ n < maxAttempts := by omega
                      exact .past (ofAttempt_of_not_lt hover) hwait
                        (hnext fun h => absurd h hover)
                  · next hzero =>
                      have hmore : n < maxAttempts := by omega
                      split
                      · next hwaited =>
                          exact .stop hsum [_, _, _] (ofAttempt_of_lt hmore) hwait
                            (.cancelled ⟨hone, hmore⟩ hwaited)
                      · next hwaited =>
                          exact .past (ofAttempt_of_lt hmore) hwait
                            (hnext fun _ => Bool.eq_false_iff.2 hwaited)

/-- The poller tells what the schedule of its attempts calls for. -/
theorem tells_run (fetch : Nat -> Option α) (cancel : Option Moment) (maxAttempts : Nat) :
    Tells fetch cancel maxAttempts (schedule maxAttempts) (run fetch cancel maxAttempts) := by
  have h : Reaches fetch cancel maxAttempts ⟨maxAttempts - maxAttempts + 1, .start⟩ -> _ :=
    tells_goOn maxAttempts (Nat.le_refl maxAttempts)
  rw [Nat.sub_self] at h
  exact h reaches_first

theorem outcome_run {o : Outcome α} : (run fetch cancel maxAttempts).outcome = o <->
    ∃ m, Reaches fetch cancel maxAttempts m ∧ EndsAt fetch cancel maxAttempts m o := by
  rcases (tells_run fetch cancel maxAttempts).ends with ⟨m, hm, hend⟩
  constructor
  · intro ho
    exact ⟨m, hm, ho ▸ hend⟩
  · intro h
    rcases h with ⟨m', hm', hend'⟩
    exact hend.unique hend' hm hm'

theorem count_run_le (fetch : Nat -> Option α) (cancel : Option Moment) (maxAttempts : Nat)
    (s : Stage) : (run fetch cancel maxAttempts).count s <= maxAttempts := by
  calc (run fetch cancel maxAttempts).count s
      <= (schedule maxAttempts).countP fun m => m.stage == s :=
        (tells_run fetch cancel maxAttempts).begins.sublist.countP_le
    _ <= maxAttempts := countP_scheduleFrom_le s maxAttempts maxAttempts 1

theorem reaches_last : Reaches fetch cancel maxAttempts ⟨maxAttempts + 1, .start⟩ <->
    (∀ n, 1 <= n -> n <= maxAttempts -> fetch n = none) ∧
      ∀ m, m.Watched maxAttempts -> cancelledBy cancel m = false := by
  constructor
  · intro h
    exact ⟨fun n hn hle => h.nothing n hn (Or.inl (Nat.lt_succ_of_le hle)),
      fun m hm => h.unseen m hm (Or.inl (Nat.lt_succ_of_le hm.attempt_le))⟩
  · intro h
    refine ⟨fun n hn hbefore => h.1 n hn ?_, fun m hm _ => h.2 m hm⟩
    simp only [Before, Stage.rank] at hbefore
    omega

/-- Polling yields the value of the first attempt that has one, ends with the cancellation when
that is seen first, and is exhausted when neither comes.  The poller goes through its schedule from
the beginning, with one wait between two attempts, and comes to no moment after a value was
obtained or the cancellation was seen; it calls for no more attempts than it may. -/
theorem outcome_and_log_run (fetch : Nat -> Option α) (cancel : Option Moment)
    (maxAttempts : Nat) :
    (∀ a, (run fetch cancel maxAttempts).outcome = .value a <->
      ∃ n, 1 <= n ∧ n <= maxAttempts ∧ fetch n = some a ∧
        Reaches fetch cancel maxAttempts ⟨n, .answer⟩) ∧
    ((run fetch cancel maxAttempts).outcome = .cancelled <->
      ∃ m, m.Watched maxAttempts ∧ cancelledBy cancel m ∧ Reaches fetch cancel maxAttempts m) ∧
    (∀ n, (run fetch cancel maxAttempts).outcome = .exhausted n <->
      n = maxAttempts ∧ (∀ k, 1 <= k -> k <= maxAttempts -> fetch k = none) ∧
        ∀ m, m.Watched maxAttempts -> cancelledBy cancel m = false) ∧
    (run fetch cancel maxAttempts).log <+: schedule maxAttempts ∧
    (∀ m ∈ schedule maxAttempts,
      m ∈ (run fetch cancel maxAttempts).log <-> Reaches fetch cancel maxAttempts m) ∧
    (∀ s, (run fetch cancel maxAttempts).count s <= maxAttempts) ∧
    run fetch cancel 0 = ⟨.exhausted 0, []⟩ := by
  have htells := tells_run fetch cancel maxAttempts
  refine ⟨fun a => ?value, ?cancelled, fun n => ?exhausted, htells.begins, htells.mem_log,
    count_run_le fetch cancel maxAttempts, rfl⟩
  case value =>
    rw [outcome_run]
    constructor
    · intro h
      rcases h with ⟨m, hm, hend⟩
      cases hend with
      | value hone hle hvalue => exact ⟨_, hone, hle, hvalue, hm⟩
    · intro h
      rcases h with ⟨n, hone, hle, hvalue, hm⟩
      exact ⟨_, hm, .value hone hle hvalue⟩
  case cancelled =>
    rw [outcome_run]
    constructor
    · intro h
      rcases h with ⟨m, hm, hend⟩
      cases hend with
      | cancelled hwatched hseen => exact ⟨m, hwatched, hseen, hm⟩
    · intro h
      rcases h with ⟨m, hwatched, hseen, hm⟩
      exact ⟨m, hm, .cancelled hwatched hseen⟩
  case exhausted =>
    rw [outcome_run, ← reaches_last]
    constructor
    · intro h
      rcases h with ⟨m, hm, hend⟩
      cases hend with
      | exhausted => exact ⟨rfl, hm⟩
    · intro h
      rcases h with ⟨rfl, hm⟩
      exact ⟨_, hm, .exhausted⟩

/-- The third attempt finds the resource. -/
def thirdTime (n : Nat) : Option String :=
  if n = 3 then some "report" else none

/-- A cancellation that comes together with the third answer is too late.  One that comes together
with the second is seen in the wait after it, and never when the second attempt is the last. -/
theorem outcome_and_log_run_thirdTime :
    (run thirdTime (some ⟨3, .answer⟩) 4).outcome = .value "report" ∧
    (run thirdTime (some ⟨2, .answer⟩) 4).outcome = .cancelled ∧
    Reaches thirdTime (some ⟨2, .answer⟩) 4 ⟨2, .wait⟩ ∧
    ∀ m, m.Watched 2 -> cancelledBy (some ⟨2, .answer⟩) m = false := by
  rcases outcome_and_log_run thirdTime (some ⟨3, .answer⟩) 4 with ⟨hvalue, -, -, -, hlog, -⟩
  rcases outcome_and_log_run thirdTime (some ⟨2, .answer⟩) 4 with ⟨-, hcancelled, -, -, hlog', -⟩
  rcases outcome_and_log_run thirdTime (some ⟨2, .answer⟩) 2 with ⟨-, -, hexhausted, -⟩
  have hanswer := (hlog ⟨3, .answer⟩ (by decide)).1 (by decide)
  have hwait := (hlog' ⟨2, .wait⟩ (by decide)).1 (by decide)
  exact ⟨(hvalue "report").2 ⟨3, by decide, by decide, rfl, hanswer⟩,
    hcancelled.2 ⟨⟨2, .wait⟩, ⟨by decide, by decide⟩, rfl, hwait⟩, hwait,
    ((hexhausted 2).1 rfl).2.2⟩

end Poll
end Workflow
