import Mathlib.Data.Set.Function
import Mathlib.Tactic.Common

/-!
# Interleaved programs that do not interfere

Several programs run on one store, their commands interleaved in any order.  If no two of them use
a key in common, each should see what it would see alone.  On a finite map that is obvious; on a
store that is shared below the level of keys, such as lists in which the entries of different
programs stand between each other, the states of two interleavings do differ, and what has to be
shown is that nobody can tell.

* `LocalCommands` — commands that a store answers by the keys they name: a command changes what is
  read at its own keys only (`frame`), and what it puts out and what is read there afterwards depends
  on what was read there before (`congr`).  Nothing else is known of the state.
* `outputOf_eq` — in a trace whose other commands keep away from a set of keys, the output of the
  programs within the set is that of a run of their own, and so is what is read there at the end.
* `read_after_eq` — two interleavings of the same separate programs end in states that read the
  same at every key.
-/

namespace Kvs

/-- Commands on a store that is read by keys. -/
structure LocalCommands (σ κ ν β γ : Type) where
  read : σ → κ → ν
  keys : γ → Set κ
  step : γ → σ → σ × List β
  frame : ∀ c s k, k ∉ keys c → read (step c s).1 k = read s k
  congr : ∀ c s t, Set.EqOn (read s) (read t) (keys c) →
    (step c s).2 = (step c t).2 ∧ Set.EqOn (read (step c s).1) (read (step c t).1) (keys c)

namespace LocalCommands

variable {σ κ ν β γ ι : Type} (L : LocalCommands σ κ ν β γ)

/-! ## Runs and traces -/

/-- A program alone: the state it ends in and what it puts out. -/
def run (s : σ) : List γ → σ × List β
  | [] => (s, [])
  | c :: cs => ((run (L.step c s).1 cs).1, (L.step c s).2 ++ (run (L.step c s).1 cs).2)

/-- The state behind a trace, that is, commands with the programs they belong to. -/
def after (s : σ) : List (ι × γ) → σ
  | [] => s
  | p :: trace => after (L.step p.2 s).1 trace

/-- The commands of a program in a trace. -/
def program [DecidableEq ι] (i : ι) (trace : List (ι × γ)) : List γ :=
  (trace.filter fun p => p.1 = i).map Prod.snd

/-- What a program puts out in a trace. -/
def outputOf [DecidableEq ι] (i : ι) (s : σ) : List (ι × γ) → List β
  | [] => []
  | p :: trace => (if p.1 = i then (L.step p.2 s).2 else []) ++ outputOf i (L.step p.2 s).1 trace

variable [DecidableEq ι] {i : ι} {s t : σ} {c : γ} {K : Set κ} {trace trace' : List (ι × γ)}

lemma program_cons_self (c : γ) (trace : List (ι × γ)) :
    program i ((i, c) :: trace) = c :: program i trace := by
  simp [program]

lemma program_cons_of_ne {j : ι} (hne : j ≠ i) (c : γ) (trace : List (ι × γ)) :
    program i ((j, c) :: trace) = program i trace := by
  simp [program, hne]

lemma mem_program : c ∈ program i trace ↔ (i, c) ∈ trace := by
  simp [program]

/-! ## One command -/

/-- A command within a set of keys, on two states that read the same there. -/
lemma step_within (hkeys : L.keys c ⊆ K) (hagree : Set.EqOn (L.read s) (L.read t) K) :
    (L.step c s).2 = (L.step c t).2 ∧
      Set.EqOn (L.read (L.step c s).1) (L.read (L.step c t).1) K := by
  obtain ⟨hout, hread⟩ := L.congr c s t (hagree.mono hkeys)
  refine ⟨hout, ?_⟩
  intro k hk
  by_cases hmem : k ∈ L.keys c
  · exact hread hmem
  · rw [L.frame c s k hmem, L.frame c t k hmem]
    exact hagree hk

/-- A command that keeps away from a set of keys. -/
lemma step_apart (hkeys : ∀ k ∈ L.keys c, k ∉ K) :
    Set.EqOn (L.read (L.step c s).1) (L.read s) K := by
  intro k hk
  exact L.frame c s k fun hmem => hkeys k hmem hk

/-! ## Traces -/

/-- **A program in a trace**, by induction over the trace: its own commands keep the two states
alike where it reads, and the others do not touch what it reads. -/
theorem outputOf_eq (hown : ∀ p ∈ trace, p.1 = i → L.keys p.2 ⊆ K)
    (hother : ∀ p ∈ trace, p.1 ≠ i → ∀ k ∈ L.keys p.2, k ∉ K)
    (hagree : Set.EqOn (L.read s) (L.read t) K) :
    L.outputOf i s trace = (L.run t (program i trace)).2 ∧
      Set.EqOn (L.read (L.after s trace)) (L.read (L.run t (program i trace)).1) K := by
  induction trace generalizing s t with
  | nil => exact ⟨rfl, hagree⟩
  | cons p trace ih =>
      obtain ⟨j, c⟩ := p
      have hown' := fun q hq => hown q (List.mem_cons_of_mem _ hq)
      have hother' := fun q hq => hother q (List.mem_cons_of_mem _ hq)
      by_cases hj : j = i
      · subst hj
        obtain ⟨hout, hread⟩ := L.step_within (hown (j, c) (by simp) rfl) hagree
        obtain ⟨hrest, hend⟩ := ih hown' hother' hread
        rw [program_cons_self, run, outputOf, if_pos rfl]
        exact ⟨by rw [hout, hrest], hend⟩
      · have hread := L.step_apart (s := s) (hother (j, c) (by simp) hj)
        obtain ⟨hrest, hend⟩ := ih hown' hother' (hread.trans hagree)
        rw [program_cons_of_ne hj, outputOf, if_neg hj, List.nil_append]
        exact ⟨hrest, hend⟩

omit [DecidableEq ι] in
/-- A key that no command names. -/
lemma read_after_of_notMem {k : κ} (hk : ∀ p ∈ trace, k ∉ L.keys p.2) :
    L.read (L.after s trace) k = L.read s k := by
  induction trace generalizing s with
  | nil => rfl
  | cons p trace ih =>
      rw [after, ih fun q hq => hk q (List.mem_cons_of_mem _ hq)]
      exact L.frame p.2 s k (hk p (by simp))

/-! ## Separate programs -/

/-- No two programs name the same key. -/
def Separate (programs : ι → List γ) : Prop :=
  ∀ i j, i ≠ j → ∀ c ∈ programs i, ∀ d ∈ programs j, ∀ k ∈ L.keys c, k ∉ L.keys d

/-- The keys of a program. -/
def keysOf (cs : List γ) : Set κ := { k | ∃ c ∈ cs, k ∈ L.keys c }

variable {programs : ι → List γ}

/-- A part of each program, interleaved: what each of them puts out, and what is read at its keys,
is as if it had run alone. -/
theorem outputOf_separate (hseparate : L.Separate programs)
    (hpart : ∀ j, ∀ c ∈ program j trace, c ∈ programs j) (i : ι) (s : σ) :
    L.outputOf i s trace = (L.run s (program i trace)).2 ∧
      Set.EqOn (L.read (L.after s trace)) (L.read (L.run s (program i trace)).1)
        (L.keysOf (programs i)) := by
  refine L.outputOf_eq ?_ ?_ (Set.eqOn_refl _ _)
  · intro p hp hi
    subst hi
    intro k hk
    exact ⟨p.2, hpart p.1 p.2 (mem_program.mpr hp), hk⟩
  · rintro p hp hi k hk ⟨c, hc, hkc⟩
    have hp' := hpart p.1 p.2 (mem_program.mpr hp)
    exact hseparate p.1 i hi p.2 hp' c hc k hk hkc

/-- **Two interleavings** of the same separate programs. -/
theorem read_after_eq (hseparate : L.Separate programs)
    (htrace : ∀ j, program j trace = programs j) (htrace' : ∀ j, program j trace' = programs j)
    (s : σ) (k : κ) : L.read (L.after s trace) k = L.read (L.after s trace') k := by
  by_cases hk : ∃ i, k ∈ L.keysOf (programs i)
  · obtain ⟨i, hk⟩ := hk
    have hpart : ∀ j, ∀ c ∈ program j trace, c ∈ programs j := fun j c hc => htrace j ▸ hc
    have hpart' : ∀ j, ∀ c ∈ program j trace', c ∈ programs j := fun j c hc => htrace' j ▸ hc
    have hread := (L.outputOf_separate hseparate hpart i s).2 hk
    have hread' := (L.outputOf_separate hseparate hpart' i s).2 hk
    rw [hread, hread', htrace i, htrace' i]
  · have huntouched : ∀ {trace : List (ι × γ)}, (∀ j, program j trace = programs j) →
        ∀ p ∈ trace, k ∉ L.keys p.2 := by
      intro trace htrace p hp hmem
      exact hk ⟨p.1, p.2, htrace p.1 ▸ mem_program.mpr hp, hmem⟩
    rw [L.read_after_of_notMem (huntouched htrace), L.read_after_of_notMem (huntouched htrace')]

end LocalCommands

end Kvs
