import MarketFeed.Pool
import Mathlib.Logic.Relation

/-! No schedule strands the pool: from any state the workers can empty their queues, and
once stopped they can all leave. -/
namespace MarketFeed.Pool
open Relation

def WorkerStep (p next : Pool) : Prop := ∃ s, p.workerStep s = some next

abbrev Works : Pool → Pool → Prop := ReflTransGen WorkerStep

variable {start : Normalizer} {p next : Pool} {accepted : List WireMsg} {s : Nat}

theorem works_frame (works : Works p next) :
    next.numShards = p.numShards ∧ next.stop = p.stop ∧ next.drain = p.drain := by
  induction works with
  | refl => exact ⟨rfl,rfl,rfl⟩
  | tail _ step ih =>
    obtain ⟨s,taken⟩ := step
    obtain ⟨_,shard,pc,rfl,_⟩ := workerStep_move taken
    exact ih

theorem works_sound (works : Works p next) (sound : Sound start p accepted) : Sound start next accepted := by
  induction works with
  | refl => exact sound
  | tail _ step ih =>
    obtain ⟨s,taken⟩ := step
    exact ih.worker taken

theorem works_one (p : Pool) (s : Nat) (shard : Shard) (pc : WorkerPc) (taken : p.workerStep s = some (p.move s shard pc)) :
    Works p (p.move s shard pc) :=
  ReflTransGen.single ⟨s,taken⟩

section OneWorker
variable (inside : s < p.numShards)
include inside

theorem works_poll (running : p.stop = false) (stays : p.workers s ≠ .exited) :
    ∃ next, Works p next ∧ next.workers s = .polling ∧ (next.shards s).queue = (p.shards s).queue := by
  cases located : p.workers s with
  | polling => exact ⟨p,.refl,located,rfl⟩
  | popped item =>
    refine ⟨_,works_one p s ((p.shards s).work item) .polling (by simp [workerStep,inside,located]),?_⟩
    simp [move,Shard.work_queue]
  | foundEmpty =>
    refine ⟨_,works_one p s (p.shards s) .polling (by simp [workerStep,inside,located,running]),?_⟩
    simp [move]
  | exited => exact absurd located stays

theorem works_pop (item : QueueItem) (rest : List QueueItem) (located : p.workers s = .polling)
    (head : (p.shards s).queue = item :: rest) :
    ∃ next, Works p next ∧ next.workers s = .polling ∧ (next.shards s).queue = rest := by
  have popped := works_one p s { p.shards s with queue := rest } (.popped item)
    (by simp [workerStep,inside,located,head])
  have applied := works_one (p.move s { p.shards s with queue := rest } (.popped item)) s
    (Shard.work { p.shards s with queue := rest } item) .polling (by
      have within : s < (p.move s { p.shards s with queue := rest } (.popped item)).numShards := inside
      rw [workerStep,if_pos within]
      simp [move])
  refine ⟨_,popped.trans applied,?_⟩
  simp [move,Shard.work_queue]

end OneWorker

theorem works_polled (queue : List QueueItem) (inside : s < p.numShards) (located : p.workers s = .polling)
    (held : (p.shards s).queue = queue) :
    ∃ next, Works p next ∧ next.workers s = .polling ∧ (next.shards s).queue = [] := by
  induction queue generalizing p with
  | nil => exact ⟨p,.refl,located,held⟩
  | cons item rest ih =>
    obtain ⟨middle,works,polling,shorter⟩ := works_pop inside item rest located held
    obtain ⟨next,more,polling,emptied⟩ := ih (by rwa [(works_frame works).1]) polling shorter
    exact ⟨next,works.trans more,polling,emptied⟩

theorem works_empty (inside : s < p.numShards) (running : p.stop = false) (stays : p.workers s ≠ .exited) :
    ∃ next, Works p next ∧ next.workers s = .polling ∧ (next.shards s).queue = [] := by
  obtain ⟨middle,works,polling,_⟩ := works_poll inside running stays
  obtain ⟨next,more,final⟩ := works_polled _ (by rwa [(works_frame works).1]) polling rfl
  exact ⟨next,works.trans more,final⟩

theorem works_exit (inside : s < p.numShards) (stopped : p.stop = true) (empty : (p.shards s).queue = []) :
    ∃ next, Works p next ∧ next.workers s = .exited := by
  have leave : ∀ p : Pool, s < p.numShards → p.stop = true → p.workers s = .foundEmpty →
      ∃ next, Works p next ∧ next.workers s = .exited := by
    intro p inside stopped located
    refine ⟨_,works_one p s (p.shards s) .exited (by simp [workerStep,inside,located,stopped]),?_⟩
    simp [move]
  have miss : ∀ p : Pool, s < p.numShards → p.stop = true → (p.shards s).queue = [] →
      p.workers s = .polling → ∃ next, Works p next ∧ next.workers s = .exited := by
    intro p inside stopped empty located
    have missed := works_one p s (p.shards s) .foundEmpty (by simp [workerStep,inside,located,empty])
    obtain ⟨next,works,gone⟩ := leave (p.move s (p.shards s) .foundEmpty) inside stopped (by simp [move])
    exact ⟨next,missed.trans works,gone⟩
  cases located : p.workers s with
  | polling => exact miss p inside stopped empty located
  | popped item =>
    have applied := works_one p s ((p.shards s).work item) .polling (by simp [workerStep,inside,located])
    obtain ⟨next,works,gone⟩ := miss (p.move s ((p.shards s).work item) .polling) inside stopped
      (by simp [move,Shard.work_queue,empty]) (by simp [move])
    exact ⟨next,applied.trans works,gone⟩
  | foundEmpty => exact leave p inside stopped located
  | exited => exact ⟨p,.refl,located⟩

def CloseStep (p next : Pool) : Prop := WorkerStep p next ∨ p.drainStep = some next

abbrev Closes : Pool → Pool → Prop := ReflTransGen CloseStep

theorem closes_works (works : Works p next) : Closes p next := ReflTransGen.mono (fun _ _ step => Or.inl step) _ _ works

theorem closes_joining (left j : Nat) (sound : Sound start p accepted) (located : p.drain = .joining j)
    (count : p.numShards - j = left) : ∃ next, Closes p next ∧ next.drain = .returned := by
  induction left generalizing p j with
  | zero =>
    have all : ¬j < p.numShards := by omega
    refine ⟨{ p with drain := .returned },ReflTransGen.single (Or.inr ?_),rfl⟩
    simp [Pool.drainStep,located,all]
  | succ left ih =>
    have inside : j < p.numShards := by omega
    have stopped : p.stop = true := by rw [sound.stop,located]; rfl
    have empty := sound.drained j (by simpa [located,DrainPc.drained] using inside)
    obtain ⟨middle,works,gone⟩ := works_exit inside stopped empty
    obtain ⟨numShards,_,drain⟩ := works_frame works
    have inside' : j < middle.numShards := by omega
    have taken : middle.drainStep = some { middle with drain := .joining (j + 1) } := by
      simp [Pool.drainStep,drain,located,inside',gone]
    have joined := (works_sound works sound).drainStep taken
    obtain ⟨next,closes,returned⟩ := ih (j + 1) joined rfl (by simp; omega)
    exact ⟨next,(closes_works works).trans (ReflTransGen.head (Or.inr taken) closes),returned⟩

theorem closes_waiting (left j : Nat) (sound : Sound start p accepted) (located : p.drain = .waiting j)
    (count : p.numShards - j = left) : ∃ next, Closes p next ∧ next.drain = .returned := by
  induction left generalizing p j with
  | zero =>
    have all : ¬j < p.numShards := by omega
    have taken : p.drainStep = some { p with stop := true, drain := .joining 0 } := by
      simp [Pool.drainStep,located,all]
    obtain ⟨next,closes,returned⟩ := closes_joining _ 0 (sound.drainStep taken) rfl rfl
    exact ⟨next,ReflTransGen.head (Or.inr taken) closes,returned⟩
  | succ left ih =>
    have inside : j < p.numShards := by omega
    have running : p.stop = false := by rw [sound.stop,located]; rfl
    have stays : p.workers j ≠ .exited := fun gone => by simp [sound.left j gone] at running
    obtain ⟨middle,works,_,emptied⟩ := works_empty inside running stays
    obtain ⟨numShards,_,drain⟩ := works_frame works
    have inside' : j < middle.numShards := by omega
    have taken : middle.drainStep = some { middle with drain := .waiting (j + 1) } := by
      simp [Pool.drainStep,drain,located,inside',emptied]
    have waited := (works_sound works sound).drainStep taken
    obtain ⟨next,closes,returned⟩ := ih (j + 1) waited rfl (by simp; omega)
    exact ⟨next,(closes_works works).trans (ReflTransGen.head (Or.inr taken) closes),returned⟩

/-- Once called, `drain_and_stop` can always return. -/
theorem closes_returned (sound : Sound start p accepted) (called : p.drain ≠ .notCalled) :
    ∃ next, Closes p next ∧ next.drain = .returned := by
  cases located : p.drain with
  | notCalled => exact absurd located called
  | waiting j => exact closes_waiting _ j sound located rfl
  | joining j => exact closes_joining _ j sound located rfl
  | returned => exact ⟨p,.refl,located⟩

theorem drainStep_called (taken : p.drainStep = some next) :
    p.drain ≠ .notCalled ∧ next.drain ≠ .notCalled := by
  unfold drainStep at taken
  cases located : p.drain with
  | notCalled => simp [located] at taken
  | waiting j =>
    simp only [located] at taken
    split at taken
    · split at taken <;> cases taken <;> simp [located]
    · cases taken
      simp
  | joining j =>
    simp only [located] at taken
    split at taken
    · split at taken <;> cases taken
      simp
    · cases taken
      simp
  | returned => simp [located] at taken

theorem drainStep_shards (taken : p.drainStep = some next) : next.shards = p.shards := by
  unfold drainStep at taken
  split at taken
  next => cases taken
  next => split at taken <;> [split at taken; skip] <;> cases taken <;> rfl
  next => split at taken <;> [split at taken; skip] <;> cases taken <;> rfl
  next => cases taken

end MarketFeed.Pool
