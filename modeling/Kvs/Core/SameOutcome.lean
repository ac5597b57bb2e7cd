import Kvs.Core.CString

/-!
# Two programs with the same outcome

A program over one kind of state and a program over another do the same if they fail with the same
fault or both return, and what they return is related.  Unlike a simulation that speaks of the runs
that end well, this one says that neither program has a fault the other has not.

* `SameOutcome` — the relation between two outcomes, given that between two results.
* `SameOutcome.bind` — sequences of operations, one operation after the other.
* `runCalls` and `SameOutcome.runCalls` — sequences of calls on a state, each of which returns
  something: if related states stay related and every call returns the same, so do whole runs.
-/

namespace Kvs

section Outcomes

variable {α β α' β' : Type}

/-- The same fault, or related results. -/
def SameOutcome (rel : α → β → Prop) : Except Fault α → Except Fault β → Prop
  | .ok a, .ok b => rel a b
  | .error fault, .error fault' => fault = fault'
  | _, _ => False

variable {rel : α → β → Prop} {rel' : α' → β' → Prop} {x : Except Fault α} {y : Except Fault β}

@[simp] lemma sameOutcome_ok {a : α} {b : β} : SameOutcome rel (.ok a) (.ok b) ↔ rel a b := Iff.rfl

@[simp] lemma sameOutcome_error {fault fault' : Fault} :
    SameOutcome rel (.error fault) (.error fault') ↔ fault = fault' := Iff.rfl

/-- An operation has the same outcome as itself. -/
lemma SameOutcome.refl (x : Except Fault α) : SameOutcome Eq x x := by
  cases x with
  | error fault => exact rfl
  | ok a => exact rfl

/-- One operation after the other. -/
lemma SameOutcome.bind (h : SameOutcome rel x y) {f : α → Except Fault α'} {g : β → Except Fault β'}
    (hnext : ∀ a b, rel a b → SameOutcome rel' (f a) (g b)) :
    SameOutcome rel' (x >>= f) (y >>= g) := by
  cases x with
  | error fault =>
      cases y with
      | error fault' => exact h
      | ok b => exact h.elim
  | ok a =>
      cases y with
      | error fault' => exact h.elim
      | ok b => exact hnext a b h

/-- If the second program returns, the first does. -/
lemma SameOutcome.of_ok {b : β} (h : SameOutcome rel x y) (hy : y = .ok b) :
    ∃ a, x = .ok a ∧ rel a b := by
  subst hy
  cases x with
  | error fault => exact h.elim
  | ok a => exact ⟨a, rfl, h⟩

/-- If the first does, the second does. -/
lemma SameOutcome.ok_of {a : α} (h : SameOutcome rel x y) (hx : x = .ok a) :
    ∃ b, y = .ok b ∧ rel a b := by
  subst hx
  cases y with
  | error fault => exact h.elim
  | ok b => exact ⟨b, rfl, h⟩

end Outcomes

/-! ## Runs -/

section Runs

variable {σ τ γ ρ : Type}

/-- One call after the other, with what each returns. -/
def runCalls (call : σ → γ → Except Fault (ρ × σ)) : σ → List γ → Except Fault (List ρ × σ)
  | s, [] => pure ([], s)
  | s, c :: cs => do
      let (result, s) ← call s c
      let (results, s) ← runCalls call s cs
      pure (result :: results, s)

/-- The same result, and related states. -/
def SameResult (rel : σ → τ → Prop) (x : ρ × σ) (y : ρ × τ) : Prop := x.1 = y.1 ∧ rel x.2 y.2

variable {call : σ → γ → Except Fault (ρ × σ)} {call' : τ → γ → Except Fault (ρ × τ)}
  {rel : σ → τ → Prop}

/-- **The rule for runs**, by induction over the calls. -/
theorem SameOutcome.runCalls
    (hcall : ∀ s t c, rel s t → SameOutcome (SameResult rel) (call s c) (call' t c))
    {s : σ} {t : τ} (h : rel s t) (cs : List γ) :
    SameOutcome (SameResult rel) (Kvs.runCalls call s cs) (Kvs.runCalls call' t cs) := by
  induction cs generalizing s t with
  | nil => exact ⟨rfl, h⟩
  | cons c cs ih =>
      refine (hcall s t c h).bind fun x y hxy => ?_
      obtain ⟨hresult, hstate⟩ := hxy
      refine (ih hstate).bind fun xs ys hxys => ?_
      obtain ⟨hresults, hlast⟩ := hxys
      exact ⟨by rw [hresult, hresults], hlast⟩

end Runs

end Kvs
