import Mathlib.Logic.Basic

/-!
# Programs that call operations

A `Program` calls operations and goes on with their answers; a loop of it may run forever.
`Program.next` is its first step once a call has been answered.

A `Protocol` says which operations may be called in which of its states, and which state the
answer leaves. `Program.wp` is the weakest condition on that state under which the program keeps
to the protocol whatever the answers are, and returns only what it should. It goes along the
program: `wp_bind` for a sequence, an invariant for a loop (`wp_loop`), and what is true of a
program is true of what is left of it (`wp_answer`, `wp_unroll`).
-/

namespace Pintos.Lib

/-- `Ans o` are the answers to `o`. -/
inductive Program (Op : Type) (Ans : Op → Type) : Type → Type 1
  | ret {α : Type} (x : α) : Program Op Ans α
  | call {α : Type} (o : Op) (k : Ans o → Program Op Ans α) : Program Op Ans α
  /-- `body` again and again, with what it gives on the left, until it gives something on the
  right. -/
  | loop {α σ β : Type} (body : σ → Program Op Ans (σ ⊕ β)) (x : σ) (k : β → Program Op Ans α) :
      Program Op Ans α

namespace Program

variable {Op : Type} {Ans : Op → Type} {S α β σ : Type}

def bind : Program Op Ans α → (α → Program Op Ans β) → Program Op Ans β
  | ret x, f => f x
  | call o k, f => call o fun r => (k r).bind f
  | loop body x k, f => loop body x fun b => (k b).bind f

instance : Monad (Program Op Ans) where
  pure := ret
  bind := bind

/-- An operation by itself. -/
def op (o : Op) : Program Op Ans (Ans o) := call o ret

/-- A loop by itself. -/
def repeating (x : σ) (body : σ → Program Op Ans (σ ⊕ β)) : Program Op Ans β := loop body x ret

end Program

/-- What may be called, and what it leaves. -/
structure Protocol (Op : Type) (Ans : Op → Type) (S : Type) where
  allowed : S → Op → Prop
  after : S → (o : Op) → Ans o → S

namespace Program

variable {Op : Type} {Ans : Op → Type} {S α β σ : Type} (π : Protocol Op Ans S)

def wp {α : Type} : Program Op Ans α → (α → S → Prop) → S → Prop
  | ret x, Q, s => Q x s
  | call o k, Q, s => π.allowed s o ∧ ∀ r, (k r).wp Q (π.after s o r)
  | loop body x k, Q, s => ∃ I : _ → S → Prop, I x s ∧
      ∀ y s, I y s → (body y).wp (fun r s => match r with
        | .inl z => I z s
        | .inr b => (k b).wp Q s) s

variable {π} {s : S} {Q R : α → S → Prop}

@[simp] theorem pure_eq (x : α) : (pure x : Program Op Ans α) = ret x := rfl

@[simp] theorem bind_eq (p : Program Op Ans α) (f : α → Program Op Ans β) : p >>= f = p.bind f := rfl

@[simp] theorem wp_ret (x : α) : (ret x).wp π Q s ↔ Q x s := Iff.rfl

theorem wp_mono {p : Program Op Ans α} (h : p.wp π Q s) (hQ : ∀ x s, Q x s → R x s) :
    p.wp π R s := by
  induction p generalizing s with
  | ret x => exact hQ x s h
  | call o k ih => exact ⟨h.1, fun r => ih r (h.2 r) hQ⟩
  | loop body x k ihb ihk =>
    obtain ⟨I, hx, hI⟩ := h
    refine ⟨I, hx, fun y s hy => ihb y (hI y s hy) ?_⟩
    intro r s hr
    cases r with
    | inl z => exact hr
    | inr b => exact ihk b hr hQ

theorem wp_bind {p : Program Op Ans α} {f : α → Program Op Ans β} {Q : β → S → Prop} :
    (p.bind f).wp π Q s ↔ p.wp π (fun x s => (f x).wp π Q s) s := by
  induction p generalizing s with
  | ret x => exact Iff.rfl
  | call o k ih =>
    simp only [bind, wp, ih]
  | loop body x k ihb ihk =>
    simp only [bind, wp, ihk]

theorem wp_op {o : Op} {Q : Ans o → S → Prop} (ha : π.allowed s o) (hQ : ∀ r, Q r (π.after s o r)) :
    (op o).wp π Q s := ⟨ha, hQ⟩

/-- The rule for loops: an invariant. -/
theorem wp_loop {Q : β → S → Prop} (I : σ → S → Prop) {x : σ} {body : σ → Program Op Ans (σ ⊕ β)} (hx : I x s)
    (hI : ∀ y s, I y s → (body y).wp π (fun r s => r.elim (I · s) (Q · s)) s) :
    (repeating x body).wp π Q s := by
  refine ⟨I, hx, fun y s hy => wp_mono (hI y s hy) ?_⟩
  intro r s hr
  cases r with
  | inl z => exact hr
  | inr b => exact hr

/-- Behind a call. -/
theorem wp_answer {o : Op} {k : Ans o → Program Op Ans α} (h : (call o k).wp π Q s) (r : Ans o) :
    (k r).wp π Q (π.after s o r) := h.2 r

/-- One round of a loop, then the loop again or what comes behind it. -/
def unroll (body : σ → Program Op Ans (σ ⊕ β)) (x : σ) (k : β → Program Op Ans α) :
    Program Op Ans α :=
  (body x).bind fun r => match r with
    | .inl y => loop body y k
    | .inr b => k b

theorem wp_unroll {body : σ → Program Op Ans (σ ⊕ β)} {x : σ} {k : β → Program Op Ans α}
    (h : (loop body x k).wp π Q s) : (unroll body x k).wp π Q s := by
  obtain ⟨I, hx, hI⟩ := h
  unfold unroll
  rw [wp_bind]
  apply wp_mono (hI x s hx)
  intro r s hr
  cases r with
  | inl y => exact ⟨I, hr, hI⟩
  | inr b => exact hr

end Program

end Pintos.Lib
