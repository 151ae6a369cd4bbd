import HashJoin.Counters

/-! Steps of a machine that is counted. An operation on a state answers something, leaves
a state, and raises the counters; operations done one after the other add up. -/

namespace HashJoin

structure Step (σ α : Type) where
  answer : α
  state : σ
  counters : Counters := 0

namespace Step

variable {σ τ α β : Type}

/-- The same step with its answer and its state seen in another way. -/
def map (s : Step σ α) (onState : σ → τ) (onAnswer : α → β) : Step τ β :=
  ⟨onAnswer s.answer, onState s.state, s.counters⟩

/-- A second step that starts where the first one ends and knows its answer. -/
def andThen (s : Step σ α) (next : σ → α → Step σ β) : Step σ β :=
  let t := next s.state s.answer
  ⟨t.answer, t.state, s.counters + t.counters⟩

/-- One step for each member of a list, with all their answers. -/
def each (step : σ → β → Step σ α) (start : σ) : List β → Step σ (List α)
  | [] => ⟨[], start, 0⟩
  | x :: xs => (step start x).andThen fun s a => (each step s xs).map id (a :: ·)

section Equations

variable (s : Step σ α) (onState : σ → τ) (onAnswer : α → β) (next : σ → α → Step σ β)

@[simp] theorem map_answer : (s.map onState onAnswer).answer = onAnswer s.answer := rfl
@[simp] theorem map_state : (s.map onState onAnswer).state = onState s.state := rfl
@[simp] theorem map_counters : (s.map onState onAnswer).counters = s.counters := rfl

@[simp] theorem andThen_answer : (s.andThen next).answer = (next s.state s.answer).answer := rfl
@[simp] theorem andThen_state : (s.andThen next).state = (next s.state s.answer).state := rfl
@[simp] theorem andThen_counters :
    (s.andThen next).counters = s.counters + (next s.state s.answer).counters := rfl

end Equations

theorem each_cons (step : σ → β → Step σ α) (start : σ) (x : β) (xs : List β) :
    each step start (x :: xs) =
      (step start x).andThen fun s a => (each step s xs).map id (a :: ·) := rfl

/-- Machines that step alike run alike, when states, inputs and answers are translated. -/
theorem each_map {γ δ : Type} {step : σ → β → Step σ α} {step' : τ → γ → Step τ δ}
    {onState : σ → τ} {onInput : β → γ} {onAnswer : α → δ} {xs : List β}
    (h : ∀ s, ∀ x ∈ xs, step' (onState s) (onInput x) = (step s x).map onState onAnswer)
    (start : σ) : each step' (onState start) (xs.map onInput) =
      (each step start xs).map onState (List.map onAnswer) := by
  induction xs generalizing start with
  | nil => rfl
  | cons x xs ih =>
    have ih := ih (fun s y hy => h s y (List.mem_cons_of_mem x hy)) (step start x).state
    rw [List.map_cons, each_cons, each_cons, h start x List.mem_cons_self]
    simp only [andThen, map] at ih ⊢
    rw [ih]
    rfl

/-- When only the states are translated, the answers stay the same. -/
theorem each_map_state {step : σ → β → Step σ α} {step' : τ → β → Step τ α} {onState : σ → τ}
    {xs : List β} (h : ∀ s, ∀ x ∈ xs, step' (onState s) x = (step s x).map onState id)
    (start : σ) : each step' (onState start) xs = (each step start xs).map onState id := by
  have heach := each_map h start
  rwa [List.map_id_fun', List.map_id_fun] at heach

/-- What every single step keeps is kept by many. -/
theorem each_keeps {step : σ → β → Step σ α} {P : σ → Prop}
    (h : ∀ s x, P s → P (step s x).state) {start : σ} (hs : P start) (xs : List β) :
    P (each step start xs).state := by
  induction xs generalizing start with
  | nil => exact hs
  | cons x xs ih => exact ih (h start x hs)

end Step

end HashJoin
