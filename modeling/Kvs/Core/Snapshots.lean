import Kvs.Core.ReaderWriter

/-!
# Snapshots among commands

To commands under a reader-writer lock another one is added, which takes the lock for reading and puts
out, in a single step, something that is computed from the whole state.  It is a command like the
others (`Commands.withSnapshot`), so a run with snapshots has a serial order too, and what a snapshot
shows is the state that the commands before it in this order lead to (`Commands.Serial.snapshot`).
-/

namespace Kvs

namespace Commands

variable {σ C L O ε : Type}

section Snapshot

variable (cmds : Commands σ C L O ε) (snapshot : σ → Except ε (List O))

/-- One step of a command or of a snapshot, which has nothing left when it has been taken. -/
def snapshotStep : Option C → σ → L ⊕ Bool → Except ε (Option (σ × (L ⊕ Bool) × List O))
  | some c, s, .inl l => do
      let next ← cmds.step c s l
      pure (next.map fun r => (r.1, .inl r.2.1, r.2.2))
  | none, s, .inr false => do
      let out ← snapshot s
      pure (some (s, .inr true, out))
  | _, _, _ => pure none

/-- What is left of either. -/
def snapshotRest : Option C → σ → L ⊕ Bool → Except ε (σ × List O)
  | some c, s, .inl l => cmds.rest c s l
  | none, s, .inr false => do
      let out ← snapshot s
      pure (s, out)
  | _, s, _ => pure (s, [])

variable {cmds snapshot} {c : Option C} {s s' : σ} {l l' : L ⊕ Bool} {out : List O}

/-- A step of a command among the others is a step of it. -/
lemma snapshotStep_some {c : C} {l : L} :
    cmds.snapshotStep snapshot (some c) s (.inl l) = .ok (some (s', l', out)) ↔
      ∃ l₁, l' = .inl l₁ ∧ cmds.step c s l = .ok (some (s', l₁, out)) := by
  simp only [snapshotStep]
  cases cmds.step c s l with
  | error e => simp [bind, Except.bind]
  | ok next =>
      cases next with
      | none => simp [bind, Except.bind, pure, Except.pure]
      | some r =>
          obtain ⟨s₁, l₁, out₁⟩ := r
          simp only [bind, Except.bind, pure, Except.pure, Option.map_some, Except.ok.injEq,
            Option.some.injEq, Prod.mk.injEq]
          constructor
          · rintro ⟨rfl, rfl, rfl⟩
            exact ⟨l₁, rfl, rfl, rfl, rfl⟩
          · rintro ⟨l₂, rfl, rfl, rfl, rfl⟩
            exact ⟨rfl, rfl, rfl⟩

lemma snapshotStep_none :
    cmds.snapshotStep snapshot none s (.inr false) = .ok (some (s', l', out)) ↔
      s' = s ∧ l' = .inr true ∧ snapshot s = .ok out := by
  simp only [snapshotStep]
  cases snapshot s with
  | error e => simp [bind, Except.bind]
  | ok out₁ =>
      simp only [bind, Except.bind, pure, Except.pure, Except.ok.injEq, Option.some.injEq,
        Prod.mk.injEq]
      exact ⟨fun ⟨h, h', h''⟩ => ⟨h.symm, h'.symm, h''⟩, fun ⟨h, h', h''⟩ => ⟨h.symm, h'.symm, h''⟩⟩

lemma snapshotStep_reads (hreads : (c.map cmds.reads).getD true = true)
    (h : cmds.snapshotStep snapshot c s l = .ok (some (s', l', out))) : s' = s := by
  cases c with
  | none =>
      cases l with
      | inl l => cases h
      | inr taken =>
          cases taken with
          | true => cases h
          | false => exact (snapshotStep_none.mp h).1
  | some c =>
      cases l with
      | inr taken => cases h
      | inl l =>
          obtain ⟨l₁, -, hstep⟩ := snapshotStep_some.mp h
          exact cmds.step_reads hreads hstep

lemma snapshotRest_done (h : cmds.snapshotStep snapshot c s l = .ok none) :
    cmds.snapshotRest snapshot c s l = .ok (s, []) := by
  cases c with
  | none =>
      cases l with
      | inl l => rfl
      | inr taken =>
          cases taken with
          | true => rfl
          | false =>
              simp only [snapshotStep] at h
              cases hsnapshot : snapshot s <;> simp [hsnapshot, bind, Except.bind, pure, Except.pure] at h
  | some c =>
      cases l with
      | inr taken => rfl
      | inl l =>
          refine cmds.rest_done ?_
          simp only [snapshotStep] at h
          cases hstep : cmds.step c s l with
          | error e => simp [hstep, bind, Except.bind] at h
          | ok next =>
              cases next with
              | none => rfl
              | some r => simp [hstep, bind, Except.bind, pure, Except.pure] at h

lemma snapshotRest_step (h : cmds.snapshotStep snapshot c s l = .ok (some (s', l', out))) :
    cmds.snapshotRest snapshot c s l
      = (cmds.snapshotRest snapshot c s' l').map fun r => (r.1, out ++ r.2) := by
  cases c with
  | none =>
      cases l with
      | inl l => cases h
      | inr taken =>
          cases taken with
          | true => cases h
          | false =>
              obtain ⟨rfl, rfl, hsnapshot⟩ := snapshotStep_none.mp h
              simp [snapshotRest, hsnapshot, bind, Except.bind, pure, Except.pure, Except.map]
  | some c =>
      cases l with
      | inr taken => cases h
      | inl l =>
          obtain ⟨l₁, rfl, hstep⟩ := snapshotStep_some.mp h
          exact cmds.rest_step hstep

variable (cmds snapshot)

/-- The commands, and `none` for a snapshot. -/
def withSnapshot : Commands σ (Option C) (L ⊕ Bool) O ε where
  reads := fun c => (c.map cmds.reads).getD true
  start := fun c => (c.map fun c => Sum.inl (cmds.start c)).getD (.inr false)
  step := cmds.snapshotStep snapshot
  rest := cmds.snapshotRest snapshot
  step_reads := snapshotStep_reads
  rest_done := snapshotRest_done
  rest_step := snapshotRest_step

variable {cmds snapshot}

@[simp] lemma withSnapshot_whole_some (c : C) (s : σ) :
    (cmds.withSnapshot snapshot).whole (some c) s = cmds.whole c s := rfl

lemma withSnapshot_whole_none {t : σ} :
    (cmds.withSnapshot snapshot).whole none s = .ok (t, out) ↔ t = s ∧ snapshot s = .ok out := by
  show cmds.snapshotRest snapshot none s (.inr false) = _ ↔ _
  simp only [snapshotRest]
  cases snapshot s with
  | error e => simp [bind, Except.bind]
  | ok out₁ =>
      simp only [bind, Except.bind, pure, Except.pure, Except.ok.injEq, Prod.mk.injEq]
      exact ⟨fun ⟨h, h'⟩ => ⟨h.symm, h'⟩, fun ⟨h, h'⟩ => ⟨h.symm, h'⟩⟩

end Snapshot

/-! ## What a snapshot shows -/

/-- A serial order, cut in two. -/
lemma Serial.append {ι : Type} {cmds : Commands σ C L O ε} {before after : List (ι × C × List O)}
    {s t : σ} (h : cmds.Serial s (before ++ after) t) :
    ∃ u, cmds.Serial s before u ∧ cmds.Serial u after t := by
  induction before generalizing s with
  | nil => exact ⟨s, rfl, h⟩
  | cons e before ih =>
      obtain ⟨v, hwhole, hrest⟩ := h
      obtain ⟨u, hbefore, hafter⟩ := ih hrest
      exact ⟨u, ⟨v, hwhole, hbefore⟩, hafter⟩

/-- **A snapshot shows the state behind the commands before it**, and leaves it to those behind. -/
theorem Serial.snapshot {ι : Type} {cmds : Commands σ C L O ε} {snapshot : σ → Except ε (List O)}
    {before after : List (ι × Option C × List O)} {i : ι} {out : List O} {s t : σ}
    (h : (cmds.withSnapshot snapshot).Serial s (before ++ (i, none, out) :: after) t) :
    ∃ u, (cmds.withSnapshot snapshot).Serial s before u ∧ snapshot u = .ok out ∧
      (cmds.withSnapshot snapshot).Serial u after t := by
  obtain ⟨u, hbefore, v, hwhole, hafter⟩ := h.append
  obtain ⟨rfl, hout⟩ := withSnapshot_whole_none.mp hwhole
  exact ⟨v, hbefore, hout, hafter⟩

end Commands

end Kvs
