import Pintos.Lib.Program

/-!
# Programs that end

`Program.wp` leaves open whether a program ends. Here an environment answers its operations, or
does not come back from one, and `Program.Ends` is the big-step relation: the program returns,
or stops at the operation that does not come back, and has kept to the protocol up to there.
There is one such end at most (`Ends.unique`).

The rules are those for a sequence and for one more round of a loop, so a proof that a loop ends
is an induction on whatever its rounds bring nearer.
-/

namespace Pintos.Lib.Program

section Sequence

variable {Op : Type} {Ans : Op → Type} {α β γ σ : Type}

theorem bind_assoc (p : Program Op Ans α) (f : α → Program Op Ans β) (g : β → Program Op Ans γ) :
    (p.bind f).bind g = p.bind fun x => (f x).bind g := by
  induction p with
  | ret x => rfl
  | call o k ih => exact congrArg (call o) (funext fun r => ih r f)
  | loop body x k _ ihk => exact congrArg (loop body x) (funext fun b => ihk b f)

theorem unroll_bind (body : σ → Program Op Ans (σ ⊕ β)) (x : σ) (k : β → Program Op Ans α)
    (f : α → Program Op Ans γ) :
    (unroll body x k).bind f = unroll body x fun b => (k b).bind f := by
  unfold unroll
  rw [bind_assoc]
  refine congrArg (bind (body x)) (funext fun r => ?_)
  cases r <;> rfl

end Sequence

/-- The program ends: with what it returns, or with nothing. -/
inductive Ends {Op : Type} {Ans : Op → Type} {S : Type} (π : Protocol Op Ans S)
    (env : S → (o : Op) → Option (Ans o)) {α : Type} :
    Program Op Ans α → S → Option α → S → Prop
  | ret (x : α) (s : S) : Ends π env (ret x) s (some x) s
  | stop {o : Op} {k : Ans o → Program Op Ans α} {s : S} (ha : π.allowed s o)
      (hr : env s o = none) : Ends π env (call o k) s none s
  | call {o : Op} {k : Ans o → Program Op Ans α} {s s' : S} {r : Ans o} {x : Option α}
      (ha : π.allowed s o) (hr : env s o = some r) (h : Ends π env (k r) (π.after s o r) x s') :
      Ends π env (call o k) s x s'
  | loop {σ β : Type} {body : σ → Program Op Ans (σ ⊕ β)} {y : σ} {k : β → Program Op Ans α}
      {s s' : S} {x : Option α} (h : Ends π env (unroll body y k) s x s') :
      Ends π env (loop body y k) s x s'

section Ends

variable {Op : Type} {Ans : Op → Type} {S α β σ : Type} {π : Protocol Op Ans S}
  {env : S → (o : Op) → Option (Ans o)} {s s₁ s' : S}

theorem Ends.unique {p : Program Op Ans α} {x y : Option α} (h : Ends π env p s x s')
    (h' : Ends π env p s y s₁) : x = y ∧ s' = s₁ := by
  induction h generalizing y s₁ with
  | ret x s =>
    cases h'
    exact ⟨rfl, rfl⟩
  | stop ha hr =>
    cases h' with
    | stop => exact ⟨rfl, rfl⟩
    | call ha' hr' _ =>
      rw [hr] at hr'
      cases hr'
  | call ha hr _ ih =>
    cases h' with
    | stop ha' hr' =>
      rw [hr] at hr'
      cases hr'
    | call ha' hr' h' =>
      rw [hr] at hr'
      cases hr'
      exact ih h'
  | loop _ ih =>
    cases h' with
    | loop h' => exact ih h'

/-- The first part returns. -/
theorem Ends.bind {p : Program Op Ans α} {f : α → Program Op Ans β} {a : α} {x : Option β}
    (h : Ends π env p s (some a) s₁) (hf : Ends π env (f a) s₁ x s') :
    Ends π env (p.bind f) s x s' := by
  generalize ho : some a = o at h
  induction h with
  | ret b s =>
    cases ho
    exact hf
  | stop => cases ho
  | call ha hr _ ih => exact .call ha hr (ih hf ho)
  | loop _ ih =>
    refine .loop ?_
    rw [← unroll_bind]
    exact ih hf ho

/-- The first part does not. -/
theorem Ends.bind_stop {p : Program Op Ans α} {f : α → Program Op Ans β}
    (h : Ends π env p s none s') : Ends π env (p.bind f) s none s' := by
  generalize ho : (none : Option α) = o at h
  induction h with
  | ret b s => cases ho
  | stop ha hr => exact .stop ha hr
  | call ha hr _ ih => exact .call ha hr (ih ho)
  | loop _ ih =>
    refine .loop ?_
    rw [← unroll_bind]
    exact ih ho

theorem Ends.op {o : Op} {r : Ans o} (ha : π.allowed s o) (hr : env s o = some r) :
    Ends π env (op o) s (some r) (π.after s o r) :=
  .call ha hr (.ret r _)

/-- An operation and what comes behind it. -/
theorem Ends.op_bind {o : Op} {r : Ans o} {f : Ans o → Program Op Ans β} {x : Option β}
    (ha : π.allowed s o) (hr : env s o = some r) (hf : Ends π env (f r) (π.after s o r) x s') :
    Ends π env ((Program.op o).bind f) s x s' :=
  .bind (.op ha hr) hf

/-- One more round. -/
theorem Ends.again {body : σ → Program Op Ans (σ ⊕ β)} {y z : σ} {x : Option β}
    (h : Ends π env (body y) s (some (.inl z)) s₁) (hz : Ends π env (repeating z body) s₁ x s') :
    Ends π env (repeating y body) s x s' :=
  .loop (.bind h hz)

/-- The last round. -/
theorem Ends.last {body : σ → Program Op Ans (σ ⊕ β)} {y : σ} {b : β}
    (h : Ends π env (body y) s (some (.inr b)) s') : Ends π env (repeating y body) s (some b) s' :=
  .loop (.bind h (.ret b s'))

/-- A round that does not come back. -/
theorem Ends.quit {body : σ → Program Op Ans (σ ⊕ β)} {y : σ}
    (h : Ends π env (body y) s none s') : Ends π env (repeating y body) s none s' :=
  .loop (.bind_stop h)

end Ends

end Pintos.Lib.Program
