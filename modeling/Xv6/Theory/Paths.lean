/-
# Theory.Paths -- every path through a structured function, and the traces its runs leave

A C function made of statements, `if`, loops with `break`, early `return`,
`goto` to a shared exit and calls to other such functions is modelled here by
all its paths at once: each condition it tests is left open, so `branch` runs
either side and `loop` runs its body any number of times.  A run leaves a
trace of events and ends in one of four ways (`Flow`): at the end of the code,
by `break`, by `return`, or in a halt (a panic, which never comes back).
`Exec c t f` is that big-step relation.

A partial automaton `step : E → σ → Option σ` reads a trace (`run`); `none`
is an event that cannot happen in the state it meets.  `exits` follows every
path of a piece of code from one start state at once and returns the states
each way of ending can reach, or `none` when some path meets an event the
automaton refuses or a loop body does not come back to the state it started
in (the loop invariant is that state).  `exits_sound` says the answer covers
every run, by induction on the run; `check_sound` is its form for a Boolean
test of the end states.  A property of every path of a concrete function,
over every number of loop iterations, is then settled by evaluating `check`.
`run_replicate` runs one event `d` times along a family of states, which is
how a loop of the modelled code is run to its end without evaluating it.
-/
import Mathlib

namespace Paths

set_option autoImplicit false

/-- How a run of a piece of code ends. -/
inductive Flow where
  | normal
  | broke
  | returned
  | halted
  deriving DecidableEq, Repr

/-- Structured code over events `E`, with every condition left open. -/
inductive Cmd (E : Type) where
  | skip
  | emit (e : E)
  | seq (first second : Cmd E)
  | branch (left right : Cmd E)
  | loop (body : Cmd E)
  | brk
  | ret
  | halt
  | call (body : Cmd E)
  deriving Repr

namespace Cmd

variable {E : Type}

/-- Statements one after another. -/
def block : List (Cmd E) → Cmd E
  | [] => .skip
  | [c] => c
  | c :: cs => .seq c (block cs)

/-- `if (cond) c;` with the condition left open. -/
def when (c : Cmd E) : Cmd E := .branch c .skip

end Cmd

variable {E σ : Type}

/-- `Exec c t f`: some run of `c` emits the events `t`, in order, and ends
with `f`.  A `call` ends normally however its body returns; a `break` or a
`return` inside a loop ends the loop. -/
inductive Exec : Cmd E → List E → Flow → Prop
  | skip : Exec .skip [] .normal
  | emit (e : E) : Exec (.emit e) [e] .normal
  | seq {c₁ c₂ : Cmd E} {t₁ t₂ : List E} {f : Flow} :
      Exec c₁ t₁ .normal → Exec c₂ t₂ f → Exec (.seq c₁ c₂) (t₁ ++ t₂) f
  | seqStop {c₁ c₂ : Cmd E} {t : List E} {f : Flow} :
      Exec c₁ t f → f ≠ .normal → Exec (.seq c₁ c₂) t f
  | left {c₁ c₂ : Cmd E} {t : List E} {f : Flow} : Exec c₁ t f → Exec (.branch c₁ c₂) t f
  | right {c₁ c₂ : Cmd E} {t : List E} {f : Flow} : Exec c₂ t f → Exec (.branch c₁ c₂) t f
  | loopDone {c : Cmd E} : Exec (.loop c) [] .normal
  | loopMore {c : Cmd E} {t₁ t₂ : List E} {f : Flow} :
      Exec c t₁ .normal → Exec (.loop c) t₂ f → Exec (.loop c) (t₁ ++ t₂) f
  | loopBreak {c : Cmd E} {t : List E} : Exec c t .broke → Exec (.loop c) t .normal
  | loopStop {c : Cmd E} {t : List E} {f : Flow} :
      Exec c t f → f = .returned ∨ f = .halted → Exec (.loop c) t f
  | brk : Exec .brk [] .broke
  | ret : Exec .ret [] .returned
  | halt : Exec .halt [] .halted
  | callDone {c : Cmd E} {t : List E} {f : Flow} :
      Exec c t f → f ≠ .halted → Exec (.call c) t .normal
  | callHalt {c : Cmd E} {t : List E} : Exec c t .halted → Exec (.call c) t .halted

theorem Exec.block_cons {c : Cmd E} {cs : List (Cmd E)} {t₁ t₂ : List E} {f : Flow}
    (first : Exec c t₁ .normal) (rest : Exec (Cmd.block cs) t₂ f) :
    Exec (Cmd.block (c :: cs)) (t₁ ++ t₂) f := by
  cases cs with
  | nil =>
      cases rest
      rw [List.append_nil]
      exact first
  | cons c' cs => exact .seq first rest

theorem Exec.whenSkip {c : Cmd E} : Exec (Cmd.when c) [] .normal := .right .skip

/-! ## Reading a trace -/

/-- Read the trace from state `s`; `none` when an event cannot happen in the
state it meets. -/
def run (step : E → σ → Option σ) : σ → List E → Option σ
  | s, [] => some s
  | s, e :: t => (step e s).bind fun s' => run step s' t

section Run

variable (step : E → σ → Option σ)

@[simp] theorem run_nil (s : σ) : run step s [] = some s := rfl

@[simp] theorem run_cons (s : σ) (e : E) (t : List E) :
    run step s (e :: t) = (step e s).bind fun s' => run step s' t := rfl

theorem run_append (s : σ) (t₁ t₂ : List E) :
    run step s (t₁ ++ t₂) = (run step s t₁).bind fun s' => run step s' t₂ := by
  induction t₁ generalizing s with
  | nil => rfl
  | cons e t ih =>
      simp only [List.cons_append, run_cons]
      cases step e s with
      | none => rfl
      | some s' => exact ih s'

/-- What holds at the start and is kept by every event holds after every
trace: the rule that turns a lemma about one step into one about whole runs. -/
theorem run_invariant (inv : σ → Prop) (keeps : ∀ e s s', inv s → step e s = some s' → inv s')
    {s s' : σ} {t : List E} (start : inv s) (ran : run step s t = some s') : inv s' := by
  induction t generalizing s with
  | nil =>
      rw [run_nil, Option.some_inj] at ran
      exact ran ▸ start
  | cons e t ih =>
      rw [run_cons] at ran
      cases stepped : step e s with
      | none => rw [stepped, Option.bind_none] at ran; cases ran
      | some s₁ =>
          rw [stepped, Option.bind_some] at ran
          exact ih (keeps e s s₁ start stepped) ran

/-- When every event can happen in every state of the invariant and keeps
it, every trace runs to the end: the rule for showing that no run panics. -/
theorem run_total (inv : σ → Prop) (keeps : ∀ e s, inv s → ∃ s', step e s = some s' ∧ inv s') :
    ∀ (t : List E) (s : σ), inv s → ∃ s', run step s t = some s' ∧ inv s'
  | [], s, start => ⟨s, rfl, start⟩
  | e :: t, s, start => by
      obtain ⟨s₁, stepped, inv₁⟩ := keeps e s start
      rw [run_cons, stepped, Option.bind_some]
      exact run_total inv keeps t s₁ inv₁

/-- A loop of `d` passes, each taking the same event from one state of a
family to the next, reads `d` copies of that event. -/
theorem run_replicate (e : E) (f : Nat → σ) {d : Nat} (passes : ∀ i, i < d → step e (f i) = some (f (i + 1))) :
    run step (f 0) (List.replicate d e) = some (f d) := by
  induction d generalizing f with
  | zero => rfl
  | succ d ih =>
      rw [List.replicate_succ, run_cons, passes 0 (Nat.succ_pos d), Option.bind_some]
      exact ih (fun i => f (i + 1)) fun i lt => passes (i + 1) (Nat.succ_lt_succ lt)

end Run

/-! ## The end states of every path -/

/-- The states a piece of code can end in, by the way it ends. -/
structure Exits (σ : Type) where
  normal : List σ
  broke : List σ
  returned : List σ

variable [DecidableEq σ]

namespace Exits

def union (x y : Exits σ) : Exits σ :=
  ⟨x.normal ∪ y.normal, x.broke ∪ y.broke, x.returned ∪ y.returned⟩

/-- What `x` says of a run that ends with `f` in state `s`; a halt promises
nothing about its state. -/
def Holds (x : Exits σ) : Flow → σ → Prop
  | .normal, s => s ∈ x.normal
  | .broke, s => s ∈ x.broke
  | .returned, s => s ∈ x.returned
  | .halted, _ => True

/-- Every end state `x` allows, `y` allows. -/
def Covers (x y : Exits σ) : Prop := ∀ f s, x.Holds f s → y.Holds f s

theorem covers_union_left (x y : Exits σ) : x.Covers (x.union y) := by
  intro f s
  cases f <;> simp +contextual [Holds, union]

theorem covers_union_right (x y : Exits σ) : y.Covers (x.union y) := by
  intro f s
  cases f <;> simp +contextual [Holds, union]

end Exits

/-- Run `k` from each state of `ss` and collect where the runs end. -/
def gather (k : σ → Option (Exits σ)) : List σ → Option (Exits σ)
  | [] => some ⟨[], [], []⟩
  | s :: ss => do
      let x ← k s
      let y ← gather k ss
      pure (x.union y)

theorem gather_covers {k : σ → Option (Exits σ)} :
    ∀ {ss : List σ} {y : Exits σ}, gather k ss = some y →
      ∀ s ∈ ss, ∃ z, k s = some z ∧ z.Covers y
  | [], _, _, s, mem => by simp at mem
  | s' :: ss, y, gathered, s, mem => by
      simp only [gather, Option.pure_def, Option.bind_eq_bind, Option.bind_eq_some_iff,
        Option.some.injEq] at gathered
      obtain ⟨x, first, y', rest, rfl⟩ := gathered
      rcases List.mem_cons.mp mem with rfl | later
      · exact ⟨x, first, x.covers_union_left y'⟩
      · obtain ⟨z, kz, covers⟩ := gather_covers rest s later
        exact ⟨z, kz, fun f s'' holds => x.covers_union_right y' f s'' (covers f s'' holds)⟩

/-- The end states of every path of `c` from `s`, by the way the path ends;
`none` when a path meets an event `step` refuses, or when a loop body can come
back to its head in a state other than the one the loop started in. -/
def exits (step : E → σ → Option σ) : Cmd E → σ → Option (Exits σ)
  | .skip, s => some ⟨[s], [], []⟩
  | .emit e, s => (step e s).map fun s' => ⟨[s'], [], []⟩
  | .seq c₁ c₂, s => do
      let x ← exits step c₁ s
      -- the second part runs from every state the first can end in normally
      let y ← gather (exits step c₂) x.normal
      pure ⟨y.normal, x.broke ∪ y.broke, x.returned ∪ y.returned⟩
  | .branch c₁ c₂, s => do
      let x ← exits step c₁ s
      let y ← exits step c₂ s
      pure (x.union y)
  | .loop c, s => do
      let x ← exits step c s
      -- the loop invariant is the state the loop starts in
      if x.normal.all fun s' => decide (s' = s) then pure ⟨s :: x.broke, [], x.returned⟩
      else none
  | .brk, s => some ⟨[], [s], []⟩
  | .ret, s => some ⟨[], [], [s]⟩
  | .halt, _ => some ⟨[], [], []⟩
  | .call c, s => (exits step c s).map fun x => ⟨x.normal ∪ x.broke ∪ x.returned, [], []⟩

/-- What `exits` finds covers every run: the run is read through, and ends
where `exits` says that way of ending can.  By induction on the run; a loop
that goes round again starts its next iteration in the state it started in. -/
theorem exits_sound (step : E → σ → Option σ) {c : Cmd E} {t : List E} {f : Flow}
    (runs : Exec c t f) :
    ∀ s x, exits step c s = some x → ∃ s', run step s t = some s' ∧ x.Holds f s' := by
  induction runs with
  | skip =>
      intro s x found
      simp only [exits, Option.some.injEq] at found
      subst found
      exact ⟨s, rfl, List.mem_singleton_self s⟩
  | emit e =>
      intro s x found
      simp only [exits, Option.map_eq_some_iff] at found
      obtain ⟨s', stepped, rfl⟩ := found
      exact ⟨s', by simp [stepped], List.mem_singleton_self s'⟩
  | @seq c₁ c₂ t₁ t₂ f _ _ ih₁ ih₂ =>
      intro s x found
      simp only [exits, Option.pure_def, Option.bind_eq_bind, Option.bind_eq_some_iff,
        Option.some.injEq] at found
      obtain ⟨x₁, first, y, rest, rfl⟩ := found
      obtain ⟨s₁, ran₁, mid⟩ := ih₁ s x₁ first
      obtain ⟨z, second, covers⟩ := gather_covers rest s₁ mid
      obtain ⟨s₂, ran₂, holds⟩ := ih₂ s₁ z second
      refine ⟨s₂, by simp [run_append, ran₁, ran₂], ?_⟩
      have := covers f s₂ holds
      cases f <;> simp_all [Exits.Holds]
  | @seqStop c₁ c₂ t f _ stops ih =>
      intro s x found
      simp only [exits, Option.pure_def, Option.bind_eq_bind, Option.bind_eq_some_iff,
        Option.some.injEq] at found
      obtain ⟨x₁, first, y, -, rfl⟩ := found
      obtain ⟨s', ran, holds⟩ := ih s x₁ first
      refine ⟨s', ran, ?_⟩
      cases f <;> simp_all [Exits.Holds]
  | left _ ih =>
      intro s x found
      simp only [exits, Option.pure_def, Option.bind_eq_bind, Option.bind_eq_some_iff,
        Option.some.injEq] at found
      obtain ⟨x₁, first, y, -, rfl⟩ := found
      obtain ⟨s', ran, holds⟩ := ih s x₁ first
      exact ⟨s', ran, x₁.covers_union_left y _ _ holds⟩
  | right _ ih =>
      intro s x found
      simp only [exits, Option.pure_def, Option.bind_eq_bind, Option.bind_eq_some_iff,
        Option.some.injEq] at found
      obtain ⟨x₁, -, y, second, rfl⟩ := found
      obtain ⟨s', ran, holds⟩ := ih s y second
      exact ⟨s', ran, x₁.covers_union_right y _ _ holds⟩
  | loopDone =>
      intro s x found
      simp only [exits, Option.pure_def, Option.bind_eq_bind, Option.bind_eq_some_iff] at found
      obtain ⟨y, -, back⟩ := found
      split at back
      · cases back
        exact ⟨s, rfl, List.mem_cons_self⟩
      · cases back
  | @loopMore c t₁ t₂ f _ _ ih₁ ih₂ =>
      intro s x found
      have again := found
      simp only [exits, Option.pure_def, Option.bind_eq_bind, Option.bind_eq_some_iff] at found
      obtain ⟨y, body, back⟩ := found
      split at back
      · rename_i invariant
        obtain ⟨s₁, ran₁, mid⟩ := ih₁ s y body
        -- the body came back to the loop head in the state the loop started in
        have same : s₁ = s := by
          simpa using List.all_eq_true.mp invariant s₁ mid
        subst same
        obtain ⟨s₂, ran₂, holds⟩ := ih₂ s₁ x again
        exact ⟨s₂, by simp [run_append, ran₁, ran₂], holds⟩
      · cases back
  | @loopBreak c t _ ih =>
      intro s x found
      simp only [exits, Option.pure_def, Option.bind_eq_bind, Option.bind_eq_some_iff] at found
      obtain ⟨y, body, back⟩ := found
      split at back
      · cases back
        obtain ⟨s', ran, holds⟩ := ih s y body
        exact ⟨s', ran, List.mem_cons_of_mem s holds⟩
      · cases back
  | @loopStop c t f _ stops ih =>
      intro s x found
      simp only [exits, Option.pure_def, Option.bind_eq_bind, Option.bind_eq_some_iff] at found
      obtain ⟨y, body, back⟩ := found
      split at back
      · cases back
        obtain ⟨s', ran, holds⟩ := ih s y body
        refine ⟨s', ran, ?_⟩
        rcases stops with rfl | rfl <;> simp_all [Exits.Holds]
      · cases back
  | brk =>
      intro s x found
      simp only [exits, Option.some.injEq] at found
      subst found
      exact ⟨s, rfl, List.mem_singleton_self s⟩
  | ret =>
      intro s x found
      simp only [exits, Option.some.injEq] at found
      subst found
      exact ⟨s, rfl, List.mem_singleton_self s⟩
  | halt =>
      intro s x found
      exact ⟨s, rfl, trivial⟩
  | @callDone c t f _ ended ih =>
      intro s x found
      simp only [exits, Option.map_eq_some_iff] at found
      obtain ⟨y, body, rfl⟩ := found
      obtain ⟨s', ran, holds⟩ := ih s y body
      refine ⟨s', ran, ?_⟩
      cases f <;> simp_all [Exits.Holds]
  | callHalt _ ih =>
      intro s x found
      simp only [exits, Option.map_eq_some_iff] at found
      obtain ⟨y, body, rfl⟩ := found
      obtain ⟨s', ran, -⟩ := ih s y body
      exact ⟨s', ran, trivial⟩

/-- Every path of `c` from `s` is read through, and every way of ending but a
halt ends in a state `ok` accepts. -/
def check (step : E → σ → Option σ) (c : Cmd E) (s : σ) (ok : σ → Bool) : Bool :=
  match exits step c s with
  | some x => x.normal.all ok && x.broke.all ok && x.returned.all ok
  | none => false

theorem check_sound {step : E → σ → Option σ} {c : Cmd E} {s : σ} {ok : σ → Bool}
    (checked : check step c s ok = true) {t : List E} {f : Flow} (runs : Exec c t f) :
    ∃ s', run step s t = some s' ∧ (f ≠ .halted → ok s' = true) := by
  unfold check at checked
  split at checked
  · rename_i x found
    obtain ⟨s', ran, holds⟩ := exits_sound step runs s x found
    simp only [Bool.and_eq_true, List.all_eq_true] at checked
    obtain ⟨⟨normal, broke⟩, returned⟩ := checked
    refine ⟨s', ran, fun notHalted => ?_⟩
    cases f
    · exact normal s' holds
    · exact broke s' holds
    · exact returned s' holds
    · exact absurd rfl notHalted
  · cases checked

end Paths
