import Mathlib.Data.Set.Basic
import Mathlib.Logic.Function.Basic
import Mathlib.Tactic.Common

/-!
# The two ends of a FIFO

Two things that go wrong between those who share a FIFO, whatever is sent through it.

**Opens that wait for each other.**  Opening one end waits until somebody has the other end open or
waits in opening it.  Parties that open several ends one after the other can therefore hold each other
up for ever, without any of them holding a lock.

* `Opener` — what a party has open and what it has still to open, in order.
* `CanOpen` and `OpenStep` — when an open is over, and a party going on to its next one.
* `Barren` — nobody has opened anything, and everybody's next end is in a set.  If the set has no two
  ends of one FIFO, no open is ever over (`Barren.no_step`).

**A reader that looks twice.**  A consumer may look at the last item again before the next one is
there.  `Repeats xs ys` says that `ys` is `xs` with some of its entries written down several times in
a row.  Nothing is lost and nothing comes in another order (`Repeats.sublist`), and there is nothing
in `ys` that is not in `xs` (`Repeats.subset`).
-/

namespace Kvs

/-! ## Opens that wait for each other -/

section Rendezvous

variable {ε π : Type}

/-- The ends a party has open, and those it opens next; it waits in opening the first of them. -/
structure Opener (ε : Type) where
  opened : List ε
  toOpen : List ε

/-- A party that opens nothing. -/
def Opener.idle : Opener ε := ⟨[], []⟩

/-- Somebody has the other end open, or waits in opening it. -/
def CanOpen (opposite : ε → ε) (party : π → Opener ε) (e : ε) : Prop :=
  ∃ p, opposite e ∈ (party p).opened ∨ (party p).toOpen.head? = some (opposite e)

/-- One open is over. -/
inductive OpenStep [DecidableEq π] (opposite : ε → ε) (party : π → Opener ε) :
    (π → Opener ε) → Prop
  | opens (p : π) {e : ε} {rest : List ε} : (party p).toOpen = e :: rest → CanOpen opposite party e →
      OpenStep opposite party (Function.update party p ⟨(party p).opened ++ [e], rest⟩)

/-- Nothing is open, and every party that waits does so at an end of the set. -/
def Barren (firsts : Set ε) (party : π → Opener ε) : Prop :=
  ∀ p, (party p).opened = [] ∧ ∀ e, (party p).toOpen.head? = some e → e ∈ firsts

namespace Barren

variable {firsts : Set ε} {opposite : ε → ε} {party : π → Opener ε}

lemma idle : Barren firsts fun _ : π => (Opener.idle : Opener ε) :=
  fun _ => ⟨rfl, fun _ he => by cases he⟩

/-- A party comes and waits at an end of the set. -/
lemma update [DecidableEq π] (h : Barren firsts party) (p : π) {e : ε} (he : e ∈ firsts)
    (rest : List ε) : Barren firsts (Function.update party p ⟨[], e :: rest⟩) := by
  intro q
  by_cases hq : q = p
  · subst hq
    rw [Function.update_self]
    refine ⟨rfl, fun e' he' => ?_⟩
    obtain rfl := Option.some.inj he'
    exact he
  · rw [Function.update_of_ne hq]
    exact h q

/-- Nobody who waits can go on. -/
lemma not_canOpen (hfirsts : ∀ e ∈ firsts, opposite e ∉ firsts) (h : Barren firsts party) {p : π}
    {e : ε} (he : (party p).toOpen.head? = some e) : ¬ CanOpen opposite party e := by
  rintro ⟨q, hq | hq⟩
  · rw [(h q).1] at hq
    cases hq
  · exact hfirsts e ((h p).2 e he) ((h q).2 _ hq)

/-- **No open is over.** -/
theorem no_step [DecidableEq π] (hfirsts : ∀ e ∈ firsts, opposite e ∉ firsts)
    (h : Barren firsts party) (party' : π → Opener ε) : ¬ OpenStep opposite party party' := by
  rintro ⟨p, htoOpen, hopen⟩
  exact h.not_canOpen hfirsts (by rw [htoOpen]; rfl) hopen

end Barren

end Rendezvous

/-! ## Lists with repetitions in place -/

/-- Each entry once or more often, in order. -/
inductive Repeats {α : Type} : List α → List α → Prop
  | nil : Repeats [] []
  | next {xs ys : List α} (x : α) : Repeats xs ys → Repeats (xs ++ [x]) (ys ++ [x])
  | again {xs ys : List α} (x : α) : Repeats (xs ++ [x]) ys → Repeats (xs ++ [x]) (ys ++ [x])

namespace Repeats

variable {α : Type} {xs ys : List α}

/-- Nothing is lost, and the order is kept. -/
lemma sublist (h : Repeats xs ys) : xs.Sublist ys := by
  induction h with
  | nil => exact List.Sublist.refl _
  | next x _ ih => exact ih.append (List.Sublist.refl _)
  | again x _ ih => exact ih.trans (List.sublist_append_left _ _)

/-- Nothing is made up. -/
lemma subset (h : Repeats xs ys) : ys ⊆ xs := by
  induction h with
  | nil => exact List.Subset.refl _
  | next x _ ih =>
      intro y hy
      rcases List.mem_append.mp hy with hy | hy
      · exact List.mem_append_left _ (ih hy)
      · exact List.mem_append_right _ hy
  | again x _ ih =>
      intro y hy
      rcases List.mem_append.mp hy with hy | hy
      · exact ih hy
      · exact List.mem_append_right _ hy

end Repeats

end Kvs
