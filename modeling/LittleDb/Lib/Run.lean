import Mathlib.Data.List.Basic

/-! Runs of a step function: the states visited, what was recorded, and invariants along the way. -/

namespace Run

open List

variable {S A E : Type}

/--
A run from a start state whose every step meets a condition.

It lists the earlier states and everything recorded, both newest first.
-/
inductive Reach (step : S → A → Option (S × List E)) (ok : S → A → Prop) (start : S) :
    S → List S → List E → Prop where
  | start : Reach step ok start start [] []
  | step {s s' : S} {past : List S} {events new : List E} (a : A)
      (before : Reach step ok start s past events) (meets : ok s a)
      (moved : step s a = some (s', new)) :
      Reach step ok start s' (s :: past) (new ++ events)

namespace Reach

variable {step : S → A → Option (S × List E)} {ok ok' : S → A → Prop} {start s : S}
  {past : List S} {events : List E}

theorem invariant {P : S → List S → List E → Prop} (init : P start [] [])
    (keep : ∀ s a s' past events new, Reach step ok start s past events → ok s a →
      step s a = some (s', new) → P s past events → P s' (s :: past) (new ++ events))
    (run : Reach step ok start s past events) : P s past events := by
  induction run with
  | start => exact init
  | step a before meets moved ih => exact keep _ a _ _ _ _ before meets moved ih

theorem weaken (run : Reach step ok start s past events) (imply : ∀ s a, ok s a → ok' s a) :
    Reach step ok' start s past events := by
  induction run with
  | start => exact .start
  | step a before meets moved ih => exact .step a ih (imply _ _ meets) moved

end Reach

/-- Continues a run by actions, checking a condition before each. -/
def exec (step : S → A → Option (S × List E)) (check : S → A → Bool) :
    S → List S → List E → List A → Option (S × List S × List E)
  | s, past, events, [] => some (s, past, events)
  | s, past, events, a :: rest =>
    if check s a then
      match step s a with
      | none => none
      | some (s', new) => exec step check s' (s :: past) (new ++ events) rest
    else none

theorem exec_reach {step : S → A → Option (S × List E)} {check : S → A → Bool} {start s t : S}
    {actions : List A} {past past' : List S} {events events' : List E}
    (before : Reach step (fun s a => check s a = true) start s past events)
    (done : exec step check s past events actions = some (t, past', events')) :
    Reach step (fun s a => check s a = true) start t past' events' := by
  induction actions generalizing s past events with
  | nil =>
    simp only [exec, Option.some.injEq, Prod.mk.injEq] at done
    obtain ⟨rfl, rfl, rfl⟩ := done
    exact before
  | cons a rest ih =>
    rw [exec] at done
    split_ifs at done with meets
    cases moved : step s a with
    | none => simp [moved] at done
    | some result =>
      simp only [moved] at done
      exact ih (.step a before meets moved) done

theorem exec_exists (step : S → A → Option (S × List E)) (check : S → A → Bool) (start : S) (actions : List A)
    (test : S × List S × List E → Bool) (done : (exec step check start [] [] actions).any test = true) :
    ∃ s past events, Reach step (fun s a => check s a = true) start s past events ∧ test (s, past, events) = true := by
  cases result : exec step check start [] [] actions with
  | none => simp [result] at done
  | some r =>
    obtain ⟨s, past, events⟩ := r
    rw [result] at done
    exact ⟨s, past, events, exec_reach .start result, done⟩

/-- A computation did not fail, and its result passes a test. -/
def passes {α ε : Type} (test : α → Bool) : Except ε α → Bool
  | .error _ => false
  | .ok a => test a

theorem exists_of_passes {α ε : Type} {test : α → Bool} {r : Except ε α} (passed : passes test r = true) :
    ∃ a, r = .ok a ∧ test a = true := by
  cases r with
  | error e => cases passed
  | ok a => exact ⟨a, rfl, passed⟩

def fails {α ε : Type} (test : ε → Bool) : Except ε α → Bool
  | .error e => test e
  | .ok _ => false

theorem exists_of_fails {α ε : Type} {test : ε → Bool} {r : Except ε α} (failed : fails test r = true) :
    ∃ e, r = .error e ∧ test e = true := by
  cases r with
  | error e => exact ⟨e, rfl, failed⟩
  | ok a => cases failed

/-- What a list of steps has done when it was stopped after some of them. -/
def cut (exec : S → A → S) (program : List A) (n : Nat) (s : S) : S := (program.take n).foldl exec s

section Cut

variable {exec : S → A → S}

theorem cut_length (program : List A) (s : S) : cut exec program program.length s = program.foldl exec s := by
  rw [cut, take_length]

theorem cut_append (exec : S → A → S) (front back : List A) (n : Nat) (s : S) :
    (∃ m, cut exec (front ++ back) n s = cut exec front m s) ∨
    (∃ m, cut exec (front ++ back) n s = cut exec back m (front.foldl exec s)) := by
  rcases Nat.le_total n front.length with early | late
  · exact .inl ⟨n, by rw [cut, cut, take_append_of_le_length early]⟩
  · refine .inr ⟨n - front.length, ?_⟩
    rw [cut, cut, take_append, take_of_length_le late, foldl_append]

theorem cut_invariant {P : S → Prop} (program : List A) (n : Nat) {s : S} (init : P s)
    (keep : ∀ a ∈ program, ∀ s, P s → P (exec s a)) : P (cut exec program n s) := by
  have whole : ∀ (steps : List A) (s : S), (∀ a ∈ steps, a ∈ program) → P s → P (steps.foldl exec s) := by
    intro steps
    induction steps with
    | nil => exact fun s _ now => now
    | cons a steps ih =>
      intro s listed now
      exact ih _ (fun b within => listed b (mem_cons_of_mem _ within)) (keep a (listed a (by simp)) s now)
  exact whole _ s (fun a within => mem_of_mem_take within) init

end Cut

end Run
