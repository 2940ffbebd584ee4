import Mathlib.Data.List.Infix

/-! A bounded first-in first-out queue as a specification: what a call may return in
which contents, and what follows for any sequence of calls. -/
namespace MarketFeed.BoundedQueue

variable {T : Type*}

inductive Event (T : Type*) where
  | pushed (value : T)
  | full (value : T)
  | popped (value : T)
  | empty

inductive Step (bound : Nat) : List T → Event T → List T → Prop
  | pushed (queue value) (room : queue.length < bound) :
      Step bound queue (.pushed value) (queue ++ [value])
  | full (queue value) (atBound : queue.length = bound) : Step bound queue (.full value) queue
  | popped (value queue) : Step bound (value :: queue) (.popped value) queue
  | empty : Step bound [] .empty []

inductive Runs (bound : Nat) : List T → List (Event T) → List T → Prop
  | nil (queue) : Runs bound queue [] queue
  | snoc (start events middle event final) (before : Runs bound start events middle)
      (step : Step bound middle event final) : Runs bound start (events ++ [event]) final

def accepted (events : List (Event T)) : List T :=
  events.filterMap fun
    | .pushed value => some value
    | _ => none

def returned (events : List (Event T)) : List T :=
  events.filterMap fun
    | .popped value => some value
    | _ => none

@[simp] theorem accepted_append (first second : List (Event T)) :
    accepted (first ++ second) = accepted first ++ accepted second := List.filterMap_append

@[simp] theorem returned_append (first second : List (Event T)) :
    returned (first ++ second) = returned first ++ returned second := List.filterMap_append

/-- What went in is what came out and what is still there, in order. -/
theorem Runs.conservation {bound : Nat} {start final : List T} {events : List (Event T)}
    (runs : Runs bound start events final) : start ++ accepted events = returned events ++ final := by
  induction runs with
  | nil => simp [accepted,returned]
  | snoc events middle event final before step ih =>
    rw [accepted_append,returned_append,← List.append_assoc,ih]
    cases step <;> simp [accepted,returned]

theorem Step.length_le {bound : Nat} {queue next : List T} {event : Event T}
    (step : Step bound queue event next) (bounded : queue.length ≤ bound) : next.length ≤ bound := by
  cases step with
  | pushed _ room => simp; omega
  | full => exact bounded
  | popped => simp at bounded; omega
  | empty => exact bounded

theorem Runs.length_le {bound : Nat} {start final : List T} {events : List (Event T)}
    (runs : Runs bound start events final) (bounded : start.length ≤ bound) : final.length ≤ bound := by
  induction runs with
  | nil => exact bounded
  | snoc events middle event final before step ih => exact step.length_le ih

theorem Runs.append {bound : Nat} {start middle final : List T} {first second : List (Event T)}
    (left : Runs bound start first middle) (right : Runs bound middle second final) :
    Runs bound start (first ++ second) final := by
  induction right with
  | nil => simpa using left
  | snoc events here event final before step ih =>
    rw [← List.append_assoc]
    exact .snoc _ _ _ _ _ ih step

theorem Runs.split {bound : Nat} {start final : List T} {events : List (Event T)}
    (runs : Runs bound start events final) (done rest : List (Event T)) (event : Event T)
    (equal : events = done ++ event :: rest) :
    ∃ middle next, Runs bound start done middle ∧ Step bound middle event next := by
  induction runs generalizing done rest event with
  | nil => simp at equal
  | snoc events middle last final before step ih =>
    rcases List.eq_nil_or_concat rest with rfl | ⟨most,final,rfl⟩
    · obtain ⟨rfl,same⟩ := List.append_inj' equal rfl
      obtain rfl := List.singleton_inj.mp same
      exact ⟨middle,_,before,step⟩
    · have equal : events ++ [last] = (done ++ event :: most) ++ [final] := by simpa using equal
      exact ih done most event (List.append_inj' equal rfl).1

/-- A queue whose failing calls say nothing about its contents. -/
inductive Loose (bound : Nat) : List T → Event T → List T → Prop
  | pushed (queue value) (room : queue.length < bound) : Loose bound queue (.pushed value) (queue ++ [value])
  | full (queue value) : Loose bound queue (.full value) queue
  | popped (value queue) : Loose bound (value :: queue) (.popped value) queue
  | empty (queue) : Loose bound queue .empty queue

theorem Loose.conservation {bound : Nat} {queue next : List T} {event : Event T} (step : Loose bound queue event next) :
    queue ++ accepted [event] = returned [event] ++ next := by
  cases step <;> simp [accepted,returned]

theorem Runs.silent {bound : Nat} {start final : List T} (runs : Runs bound start [] final) : final = start := by
  generalize none : ([] : List (Event T)) = events at runs
  cases runs with
  | nil => rfl
  | snoc events middle event _ before step => simp at none

theorem Runs.one {bound : Nat} {start final : List T} {event : Event T} (runs : Runs bound start [event] final) :
    Step bound start event final := by
  generalize one : [event] = events at runs
  cases runs with
  | nil => cases one
  | snoc events middle last _ before step =>
    obtain ⟨none,same⟩ := List.append_inj' (show [] ++ [event] = _ from one) rfl
    obtain rfl := List.singleton_inj.mp same
    subst none
    rwa [before.silent] at step

section FromEmpty
variable {bound : Nat} {final : List T} {events : List (Event T)} (runs : Runs bound [] events final)
include runs

theorem Runs.contents : accepted events = returned events ++ final := by
  simpa using runs.conservation

theorem Runs.returned_prefix : returned events <+: accepted events := by
  rw [runs.contents]
  exact List.prefix_append _ _

theorem Runs.outstanding : (accepted events).length = (returned events).length + final.length := by
  rw [runs.contents,List.length_append]

theorem Runs.full_outstanding (done rest : List (Event T)) (value : T)
    (equal : events = done ++ .full value :: rest) :
    (accepted done).length = (returned done).length + bound := by
  obtain ⟨middle,next,before,step⟩ := runs.split done rest _ equal
  cases step
  next atBound => rw [before.outstanding,atBound]

theorem Runs.empty_outstanding (done rest : List (Event T)) (equal : events = done ++ .empty :: rest) :
    (accepted done).length = (returned done).length := by
  obtain ⟨middle,next,before,step⟩ := runs.split done rest _ equal
  cases step
  exact before.outstanding

end FromEmpty

end MarketFeed.BoundedQueue
