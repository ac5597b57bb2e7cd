import Kvs.Client.Api
import Kvs.Core.NameLocks
import Kvs.Core.Threads

/-!
# The FIFOs of the clients

A client makes its three FIFOs before it connects and unlinks them after it has disconnected
(`kvs_connect` of `src/client/api.c`, `main` of `src/client/main.c`).  Their names are made of the
identifier it is started with, and `mkfifo` fails on a name that exists, so the FIFOs are locks on the
identifier.  Here any number of clients is started, with any identifiers, and their calls of the
operating system interleave in any way.  A client can be killed at any moment, by `SIGPIPE` too, whose
handler exits.

* `client_fifos_exclusive` — two clients with one identifier are never connected at the same time, no
  client unlinks a FIFO it has not made, and what was there before the clients stays.
* `client_id_lost` — a client that fails to connect does not unlink what it has made, nor does one that
  is killed.  Nobody connects with its identifier again.
* `client_makes_fifos` — once the other clients of its identifier are gone, none of its three calls of
  `mkfifo` fails if its FIFOs are not there; if one is, it never comes to opening them.
* `client_fifos_accounted` — if that never happens, there are no FIFOs but those of the clients at work.

The handler of `SIGINT` is not here: it unlinks the FIFOs and lets the loop of `main` go on.  Nor is the
server: the opens of `kvs_connect` and the read of the reply wait for it, and here they may be over at
any time.  So there are more runs here than there really are, and what is said is said of all of them.
-/

namespace Kvs

/-! ## The names -/

inductive PipeKind where
  | Req
  | Resp
  | Notif
  deriving DecidableEq

/-- `req_pipe_path`, `resp_pipe_path` and `notif_pipe_path` before the identifier is appended. -/
def PipeKind.base : PipeKind → CString
  | Req => .lit "/tmp/req"
  | Resp => .lit "/tmp/resp"
  | Notif => .lit "/tmp/notif"

/-- An identifier whose paths fit the fields of the connect message. -/
abbrev ClientId := { id : CString // id.length ≤ 30 }

namespace ClientId

/-- A path of a client. -/
def path (id : ClientId) (kind : PipeKind) : CString := kind.base ++ id.val

/-- The paths it connects with. -/
def request (id : ClientId) : ConnectRequest where
  requestFifoName := id.path .Req
  responseFifoName := id.path .Resp
  notificationFifoName := id.path .Notif

lemma path_length_le (id : ClientId) (kind : PipeKind) :
    (id.path kind).length ≤ maxPipePathLength := by
  have hbase : kind.base.length ≤ 10 := by
    cases kind <;> decide
  have hid := id.prop
  rw [path, CString.length_append, maxPipePathLength]
  omega

/-- `kvs_connect` has room for its message. -/
lemma kvsConnect_ok (id : ClientId) : ∃ message, kvsConnect id.request = .ok message := by
  have hpad : ∀ kind, (padRight maxPipePathLength (id.path kind)).length = maxPipePathLength := by
    intro kind
    have hle := id.path_length_le kind
    simp only [CString.length] at hle
    simp only [padRight, CString.length, List.length_append, List.length_replicate]
    omega
  have htext : (connectText id.request).length < connectSize := by
    simp only [connectText, request, List.length_append, hpad]
    decide
  simp only [kvsConnect, sprintf_of_lt htext, ok_bind, pure_eq_ok]
  exact ⟨_, rfl⟩

/-- **The names say whose they are**, and which. -/
lemma path_injective {id id' : ClientId} {kind kind' : PipeKind}
    (h : id.path kind = id'.path kind') : id = id' ∧ kind = kind' := by
  have hbytes : kind.base.bytes ++ id.val.bytes = kind'.base.bytes ++ id'.val.bytes :=
    congrArg CString.bytes h
  -- eight bytes are enough to tell the kinds apart
  have htake : ∀ (kind : PipeKind) (bytes : List Byte),
      (kind.base.bytes ++ bytes).take 8 = kind.base.bytes.take 8 :=
    fun kind bytes => List.take_append_of_le_length (by cases kind <;> decide)
  have hkind : kind = kind' := by
    have heq := congrArg (List.take 8) hbytes
    rw [htake, htake] at heq
    revert heq
    cases kind <;> cases kind' <;> decide
  subst hkind
  exact ⟨Subtype.ext (CString.ext (List.append_cancel_left hbytes)), rfl⟩

end ClientId

/-! ## Clients -/

/-- Where a client is: in front of a `mkfifo`, past them in `kvs_connect`, in its loop, in front of an
`unlink`, or gone. -/
inductive ClientPc where
  | Making (kind : PipeKind)
  | Opening
  | Connected
  | Unlinking (kind : PipeKind)
  | Exited
  deriving DecidableEq

namespace ClientPc

/-- Behind a `mkfifo` that has succeeded. -/
def afterMaking : PipeKind → ClientPc
  | .Req => Making .Resp
  | .Resp => Making .Notif
  | .Notif => Opening

/-- Behind an `unlink`. -/
def afterUnlinking : PipeKind → ClientPc
  | .Req => Unlinking .Resp
  | .Resp => Unlinking .Notif
  | .Notif => Exited

/-- The FIFOs a client has made and not unlinked. -/
def kinds : ClientPc → Set PipeKind
  | Making .Req => ∅
  | Making .Resp => {.Req}
  | Making .Notif => {.Req, .Resp}
  | Opening => {.Req, .Resp, .Notif}
  | Connected => {.Req, .Resp, .Notif}
  | Unlinking .Req => {.Req, .Resp, .Notif}
  | Unlinking .Resp => {.Resp, .Notif}
  | Unlinking .Notif => {.Notif}
  | Exited => ∅

/-- The same by name. -/
def paths (id : ClientId) (pc : ClientPc) : Set CString := id.path '' pc.kinds

lemma mem_paths {id : ClientId} {pc : ClientPc} {kind : PipeKind} :
    id.path kind ∈ pc.paths id ↔ kind ∈ pc.kinds :=
  Function.Injective.mem_set_image fun _ _ h => (ClientId.path_injective h).2

lemma kinds_afterMaking (kind : PipeKind) :
    (afterMaking kind).kinds = insert kind (Making kind).kinds := by
  cases kind with
  | Req => simp [afterMaking, kinds]
  | Resp => simp [afterMaking, kinds, Set.pair_comm]
  | Notif => ext k; simp [afterMaking, kinds]; tauto

lemma kinds_afterUnlinking (kind : PipeKind) :
    (afterUnlinking kind).kinds = (Unlinking kind).kinds \ {kind} := by
  cases kind <;> ext k <;> cases k <;> simp [afterUnlinking, kinds]

end ClientPc

/-- The files there are, and where the clients are. -/
structure ClientsState (ι : Type) where
  files : Set CString
  pc : ι → ClientPc

namespace ClientsState

variable {ι : Type}

/-- Before any client has done anything. -/
def initial (files : Set CString) : ClientsState ι where
  files := files
  pc := fun _ => .Making .Req

/-- What each client has made and not unlinked. -/
def holds (id : ι → ClientId) (s : ClientsState ι) (i : ι) : Set CString := (s.pc i).paths (id i)

/-- Nobody holds anything before the first step. -/
lemma holds_initial (id : ι → ClientId) (files : Set CString) :
    (initial files).holds id = fun _ => ∅ :=
  funext fun _ => Set.image_empty _

/-- A file from before belongs to nobody. -/
lemma orphaned_initial (id : ι → ClientId) {files : Set CString} {r : CString} (hr : r ∈ files) :
    Orphaned files ((initial files).holds id) r := by
  rw [holds_initial]
  exact ⟨hr, fun _ hmem => hmem.elim⟩

/-- A client goes on. -/
def moveTo [DecidableEq ι] (s : ClientsState ι) (i : ι) (pc : ClientPc) : ClientsState ι :=
  { s with pc := Function.update s.pc i pc }

/-- A client goes on, and the files change. -/
def moveWith [DecidableEq ι] (s : ClientsState ι) (i : ι) (pc : ClientPc) (files : Set CString) :
    ClientsState ι where
  files := files
  pc := Function.update s.pc i pc

end ClientsState

section Clients

variable {ι : Type} [DecidableEq ι]

/-- One step: `mkfifo`, which fails on a file that exists; the rest of `kvs_connect`, which fails if a
FIFO cannot be opened, and is over whenever the server lets it be; `kvs_disconnect`; `unlink`; and the
end of a client that is killed. -/
inductive ClientStep (id : ι → ClientId) : ClientsState ι → ClientsState ι → Prop
  | mkfifo {s} (i : ι) {kind : PipeKind} : s.pc i = .Making kind → (id i).path kind ∉ s.files →
      ClientStep id s
        (s.moveWith i (ClientPc.afterMaking kind) (insert ((id i).path kind) s.files))
  | mkfifoFails {s} (i : ι) {kind : PipeKind} : s.pc i = .Making kind →
      (id i).path kind ∈ s.files → ClientStep id s (s.moveTo i .Exited)
  | connects {s} (i : ι) : s.pc i = .Opening → ClientStep id s (s.moveTo i .Connected)
  | connectFails {s} (i : ι) : s.pc i = .Opening → ClientStep id s (s.moveTo i .Exited)
  | disconnects {s} (i : ι) : s.pc i = .Connected → ClientStep id s (s.moveTo i (.Unlinking .Req))
  | unlinks {s} (i : ι) {kind : PipeKind} : s.pc i = .Unlinking kind →
      ClientStep id s
        (s.moveWith i (ClientPc.afterUnlinking kind) (s.files \ {(id i).path kind}))
  | killed {s} (i : ι) : s.pc i ≠ .Exited → ClientStep id s (s.moveTo i .Exited)

/-- Two clients are started with the identifier `1`. -/
def sameId : Bool → ClientId := fun _ => ⟨.lit "1", by decide⟩

variable {id : ι → ClientId} {files : Set CString} {s s' s'' : ClientsState ι}

namespace ClientPc

lemma paths_afterMaking (id : ClientId) (kind : PipeKind) :
    (afterMaking kind).paths id = insert (id.path kind) ((Making kind).paths id) := by
  rw [paths, kinds_afterMaking, Set.image_insert_eq, paths]

lemma paths_afterUnlinking (id : ClientId) (kind : PipeKind) :
    (afterUnlinking kind).paths id = (Unlinking kind).paths id \ {id.path kind} := by
  have hinjective : Function.Injective id.path := fun _ _ h => (ClientId.path_injective h).2
  rw [paths, kinds_afterUnlinking, Set.image_sdiff hinjective, Set.image_singleton, paths]

lemma mem_kinds_unlinking (kind : PipeKind) : kind ∈ (Unlinking kind).kinds := by
  cases kind <;> simp [kinds]

lemma not_mem_kinds_making (kind : PipeKind) : kind ∉ (Making kind).kinds := by
  cases kind <;> simp [kinds]

lemma paths_exited (id : ClientId) : Exited.paths id = ∅ := Set.image_empty _

end ClientPc

/-- Holdings after one client has gone on. -/
lemma holds_moveWith (i : ι) (pc : ClientPc) (files : Set CString) :
    (s.moveWith i pc files).holds id = Function.update (s.holds id) i (pc.paths (id i)) := by
  funext j
  by_cases hj : j = i
  · subst hj
    simp [ClientsState.holds, ClientsState.moveWith]
  · simp [ClientsState.holds, ClientsState.moveWith, hj]

lemma holds_moveTo (i : ι) (pc : ClientPc) :
    (s.moveTo i pc).holds id = Function.update (s.holds id) i (pc.paths (id i)) :=
  holds_moveWith i pc s.files

/-- **A step of the clients is a move of one of them.** -/
lemma ClientStep.move (h : ClientStep id s s') :
    ∃ i held', s'.holds id = Function.update (s.holds id) i held' ∧
      NameMove s.files (s.holds id i) s'.files held' := by
  cases h with
  | @mkfifo i kind hpc hnew =>
      refine ⟨i, _, holds_moveWith i _ _, ?_⟩
      rw [ClientPc.paths_afterMaking, ClientsState.holds, hpc]
      exact .create hnew
  | mkfifoFails i =>
      refine ⟨i, _, holds_moveTo i _, ?_⟩
      rw [ClientPc.paths_exited]
      exact .leave
  | connects i hpc =>
      refine ⟨i, _, holds_moveTo i _, ?_⟩
      rw [ClientsState.holds, hpc]
      exact .keep
  | connectFails i =>
      refine ⟨i, _, holds_moveTo i _, ?_⟩
      rw [ClientPc.paths_exited]
      exact .leave
  | disconnects i hpc =>
      refine ⟨i, _, holds_moveTo i _, ?_⟩
      rw [ClientsState.holds, hpc]
      exact .keep
  | @unlinks i kind hpc =>
      refine ⟨i, _, holds_moveWith i _ _, ?_⟩
      rw [ClientPc.paths_afterUnlinking, ClientsState.holds, hpc]
      exact .remove (ClientPc.mem_paths.mpr (ClientPc.mem_kinds_unlinking kind))
  | killed i =>
      refine ⟨i, _, holds_moveTo i _, ?_⟩
      rw [ClientPc.paths_exited]
      exact .leave

/-- The locks are exclusive in every run. -/
lemma exclusive_of_reachable (h : Reachable (ClientStep id) (.initial files) s) :
    Exclusive s.files (s.holds id) := by
  refine h.invariant (fun s => Exclusive s.files (s.holds id)) ?_ ?_
  · rw [ClientsState.holds_initial]
    exact .nothing files
  · intro s s' hexclusive hstep
    obtain ⟨i, held', hholds, hmove⟩ := hstep.move
    rw [hholds]
    exact hexclusive.move hmove

/-- What has no holder never gets one, and stays. -/
lemma orphaned_of_reachable {r : CString} (h : Reachable (ClientStep id) s s')
    (horphan : Orphaned s.files (s.holds id) r) : Orphaned s'.files (s'.holds id) r := by
  refine h.invariant (fun s => Orphaned s.files (s.holds id) r) horphan ?_
  intro s s' horphan hstep
  obtain ⟨i, held', hholds, hmove⟩ := hstep.move
  rw [hholds]
  exact horphan.move hmove

lemma kinds_connected (kind : PipeKind) : kind ∈ ClientPc.Connected.kinds := by
  cases kind <;> simp [ClientPc.kinds]

/-! ## Tidy clients -/

/-- A step in which no client lets go of a FIFO that stays. -/
def TidyClientStep (id : ι → ClientId) (s s' : ClientsState ι) : Prop :=
  ClientStep id s s' ∧
    ∀ i, ∀ kind ∈ (s.pc i).kinds, kind ∈ (s'.pc i).kinds ∨ (id i).path kind ∉ s'.files

/-- It is enough to look at the client that goes on. -/
lemma tidy_of_moveWith {i : ι} {pc : ClientPc} {files' : Set CString}
    (hstep : ClientStep id s (s.moveWith i pc files'))
    (hkept : ∀ kind ∈ (s.pc i).kinds, kind ∈ pc.kinds ∨ (id i).path kind ∉ files') :
    TidyClientStep id s (s.moveWith i pc files') := by
  refine ⟨hstep, fun j kind hkind => ?_⟩
  by_cases hj : j = i
  · subst hj
    simpa [ClientsState.moveWith] using hkept kind hkind
  · left
    simpa [ClientsState.moveWith, hj] using hkind

/-- A client makes a FIFO. -/
lemma tidy_mkfifo {i : ι} {kind : PipeKind} (hpc : s.pc i = .Making kind)
    (hnew : (id i).path kind ∉ s.files) : TidyClientStep id s
      (s.moveWith i (ClientPc.afterMaking kind) (insert ((id i).path kind) s.files)) := by
  refine tidy_of_moveWith (.mkfifo i hpc hnew) fun kind' hkind' => Or.inl ?_
  rw [ClientPc.kinds_afterMaking]
  rw [hpc] at hkind'
  exact Or.inr hkind'

/-- A client unlinks a FIFO. -/
lemma tidy_unlinks {i : ι} {kind : PipeKind} (hpc : s.pc i = .Unlinking kind) :
    TidyClientStep id s
      (s.moveWith i (ClientPc.afterUnlinking kind) (s.files \ {(id i).path kind})) := by
  refine tidy_of_moveWith (.unlinks i hpc) fun kind' hkind' => ?_
  rw [ClientPc.kinds_afterUnlinking]
  rw [hpc] at hkind'
  by_cases hkinds : kind' = kind
  · right
    simp [hkinds]
  · left
    exact ⟨hkind', hkinds⟩

/-- The state behind steps of one client. -/
structure MovedAlone (id : ι → ClientId) (j : ι) (s s' : ClientsState ι) : Prop where
  run : Reachable (TidyClientStep id) s s'
  others : ∀ i, i ≠ j → s'.pc i = s.pc i

lemma MovedAlone.tail {j : ι} (h : MovedAlone id j s s') {pc : ClientPc} {files' : Set CString}
    (hstep : TidyClientStep id s' (s'.moveWith j pc files')) :
    MovedAlone id j s (s'.moveWith j pc files') where
  run := h.run.tail hstep
  others := fun i hi => (Function.update_of_ne hi _ _).trans (h.others i hi)

/-- A client whose FIFOs are not there can make them and come to opening them. -/
lemma exists_run_opening {j : ι} (hj : s.pc j = .Making .Req)
    (hfree : ∀ kind, (id j).path kind ∉ s.files) :
    ∃ s', MovedAlone id j s s' ∧ s'.pc j = .Opening := by
  have hmoved : ∀ (s : ClientsState ι) (pc : ClientPc) (files : Set CString),
      (s.moveWith j pc files).pc j = pc := fun _ _ _ => Function.update_self _ _ _
  have hnew : ∀ {kind kind' : PipeKind} {files : Set CString}, kind ≠ kind' →
      (id j).path kind ∉ files → (id j).path kind ∉ insert ((id j).path kind') files := by
    rintro kind kind' files hne hfile (heq | hmem)
    · exact hne (ClientId.path_injective heq).2
    · exact hfile hmem
  let s₁ := s.moveWith j (.Making .Resp) (insert ((id j).path .Req) s.files)
  let s₂ := s₁.moveWith j (.Making .Notif) (insert ((id j).path .Resp) s₁.files)
  have hresp : (id j).path .Resp ∉ s₁.files := hnew (by decide) (hfree .Resp)
  have hnotif : (id j).path .Notif ∉ s₂.files :=
    hnew (by decide) (hnew (by decide) (hfree .Notif))
  have h₀ : MovedAlone id j s s := ⟨.refl s, fun _ _ => rfl⟩
  have h₁ : MovedAlone id j s s₁ := h₀.tail (tidy_mkfifo hj (hfree .Req))
  have h₂ : MovedAlone id j s s₂ := h₁.tail (tidy_mkfifo (hmoved s (.Making .Resp) _) hresp)
  exact ⟨_, h₂.tail (tidy_mkfifo (hmoved s₁ (.Making .Notif) _) hnotif), hmoved s₂ .Opening _⟩

/-- And if it is connected then, it can disconnect and unlink them. -/
lemma exists_run_unlinked {j : ι} (hj : s.pc j = .Connected) :
    ∃ s', MovedAlone id j s s' ∧ s'.pc j = .Exited := by
  have hmoved : ∀ (s : ClientsState ι) (pc : ClientPc) (files : Set CString),
      (s.moveWith j pc files).pc j = pc := fun _ _ _ => Function.update_self _ _ _
  let s₁ := s.moveWith j (.Unlinking .Req) s.files
  let s₂ := s₁.moveWith j (.Unlinking .Resp) (s₁.files \ {(id j).path .Req})
  let s₃ := s₂.moveWith j (.Unlinking .Notif) (s₂.files \ {(id j).path .Resp})
  have hdisconnects : TidyClientStep id s s₁ :=
    tidy_of_moveWith (.disconnects j hj) fun kind hkind => Or.inl (by rwa [hj] at hkind)
  have h₀ : MovedAlone id j s s := ⟨.refl s, fun _ _ => rfl⟩
  have h₁ : MovedAlone id j s s₁ := h₀.tail hdisconnects
  have h₂ : MovedAlone id j s s₂ := h₁.tail (tidy_unlinks (hmoved s (.Unlinking .Req) _))
  have h₃ : MovedAlone id j s s₃ := h₂.tail (tidy_unlinks (hmoved s₁ (.Unlinking .Resp) _))
  exact ⟨_, h₃.tail (tidy_unlinks (hmoved s₂ (.Unlinking .Notif) _)), hmoved s₃ .Exited _⟩

/-- If the server lets it, a client whose FIFOs are not there can be connected. -/
lemma exists_run_connected {j : ι} (hj : s.pc j = .Making .Req)
    (hfree : ∀ kind, (id j).path kind ∉ s.files) :
    ∃ s', MovedAlone id j s s' ∧ s'.pc j = .Connected := by
  obtain ⟨s₁, h₁, hopening⟩ : ∃ s₁, MovedAlone id j s s₁ ∧ s₁.pc j = .Opening :=
    exists_run_opening hj hfree
  have hconnects : TidyClientStep id s₁ (s₁.moveWith j .Connected s₁.files) :=
    tidy_of_moveWith (.connects j hopening) fun kind hkind => Or.inl (by rwa [hopening] at hkind)
  exact ⟨_, h₁.tail hconnects, Function.update_self _ _ _⟩

/-! ## Identifiers as locks -/

/-- **One client for an identifier.**  In any interleaving of any number of clients: of those with one
identifier no two have made the same FIFO, so no two are connected; each FIFO a client has made is still
there and is none of the files from before; and these are all still there. -/
theorem client_fifos_exclusive (h : Reachable (ClientStep id) (.initial files) s) :
    (∀ i j, i ≠ j → id i = id j → (∀ kind ∈ (s.pc i).kinds, kind ∉ (s.pc j).kinds) ∧
      (s.pc i = .Connected → s.pc j ≠ .Connected)) ∧
    (∀ i, ∀ kind ∈ (s.pc i).kinds, (id i).path kind ∈ s.files ∧ (id i).path kind ∉ files) ∧
      ∀ r ∈ files, r ∈ s.files := by
  have hexclusive := exclusive_of_reachable h
  have hbase : ∀ r ∈ files, Orphaned s.files (s.holds id) r :=
    fun r hr => orphaned_of_reachable h (ClientsState.orphaned_initial id hr)
  have hapart : ∀ i j, i ≠ j → id i = id j → ∀ kind ∈ (s.pc i).kinds, kind ∉ (s.pc j).kinds := by
    intro i j hij hid kind hi hj
    refine hij (hexclusive.unique i j ((id i).path kind) (ClientPc.mem_paths.mpr hi) ?_)
    rw [hid]
    exact ClientPc.mem_paths.mpr hj
  refine ⟨fun i j hij hid => ⟨hapart i j hij hid, fun hi hj => ?_⟩, fun i kind hkind => ?_,
    fun r hr => (hbase r hr).1⟩
  · have hboth := hapart i j hij hid .Req
    rw [hi, hj] at hboth
    exact hboth (kinds_connected .Req) (kinds_connected .Req)
  · have hmem : (id i).path kind ∈ s.holds id i := ClientPc.mem_paths.mpr hkind
    exact ⟨hexclusive.exist i _ hmem, fun hr => (hbase _ hr).2 i hmem⟩

/-- Of two clients one is connected, so the other one is not. -/
theorem client_fifos_exclusive_two : ∃ s, Reachable (ClientStep sameId) (.initial ∅) s ∧
    s.pc true = .Connected ∧ s.pc false ≠ .Connected := by
  obtain ⟨s, hmoved, hconnected⟩ : ∃ s, MovedAlone sameId true (.initial ∅) s ∧
      s.pc true = .Connected := exists_run_connected rfl fun _ h => h
  have hrun := hmoved.run.mono fun _ _ hstep => hstep.1
  have hexclusive := (client_fifos_exclusive hrun).1 true false (by decide) rfl
  exact ⟨s, hrun, hconnected, hexclusive.2 hconnected⟩

/-- **An identifier can be lost.**  A client that exits while a FIFO stays that it has made — it could
not make or open another one, or it was killed — leaves it there for ever, and in no run from then on
is any client with its identifier connected. -/
theorem client_id_lost (h : Reachable (ClientStep id) (.initial files) s) {i : ι} {kind : PipeKind}
    (hkind : kind ∈ (s.pc i).kinds) (hstep : ClientStep id s s') (hexit : s'.pc i = .Exited)
    (hstays : (id i).path kind ∈ s'.files) (hrun : Reachable (ClientStep id) s' s'') :
    (id i).path kind ∈ s''.files ∧ ∀ j, id j = id i → s''.pc j ≠ .Connected := by
  have hheld : (id i).path kind ∈ s.holds id i := ClientPc.mem_paths.mpr hkind
  have hgone : s'.holds id i = ∅ := by
    rw [ClientsState.holds, hexit, ClientPc.paths_exited]
  have horphan : Orphaned s'.files (s'.holds id) ((id i).path kind) := by
    refine ⟨hstays, fun j hj => ?_⟩
    obtain ⟨m, held', hholds, -⟩ := hstep.move
    -- it was this client that has moved
    obtain rfl : m = i := by
      by_contra hne
      rw [hholds, Function.update_of_ne (Ne.symm hne)] at hgone
      rw [hgone] at hheld
      exact hheld
    by_cases hji : j = m
    · rw [hji, hgone] at hj
      exact hj
    · rw [hholds, Function.update_of_ne hji] at hj
      exact hji ((exclusive_of_reachable h).unique j m _ hj hheld)
  obtain ⟨hfile, hnone⟩ := orphaned_of_reachable hrun horphan
  refine ⟨hfile, fun j hid hconnected => hnone j ?_⟩
  rw [← hid, ClientsState.holds, ClientPc.mem_paths, hconnected]
  exact kinds_connected kind

/-- Of two clients one is killed behind its first `mkfifo`, and the other one never connects. -/
theorem client_id_lost_two : ∃ s, Reachable (ClientStep sameId) (.initial ∅) s ∧
    s.pc true = .Exited ∧ ∀ s', Reachable (ClientStep sameId) s s' → s'.pc false ≠ .Connected := by
  let s₁ : ClientsState Bool :=
    (ClientsState.initial ∅).moveWith true (.Making .Resp) (insert ((sameId true).path .Req) ∅)
  have hmakes : ClientStep sameId (.initial ∅) s₁ := .mkfifo true rfl fun h => h
  have hkilled : ClientStep sameId s₁ (s₁.moveTo true .Exited) :=
    .killed true (by simp [s₁, ClientsState.moveWith])
  have hreach := (Reachable.refl _).tail hmakes
  have hkind : PipeKind.Req ∈ (s₁.pc true).kinds := by simp [s₁, ClientsState.moveWith, ClientPc.kinds]
  have hstays : (sameId true).path .Req ∈ (s₁.moveTo true .Exited).files := Or.inl rfl
  refine ⟨_, hreach.tail hkilled, rfl, fun s' hrun => ?_⟩
  exact (client_id_lost hreach hkind hkilled rfl hstays hrun).2 false rfl

/-- Who has moved in a step: a client that was not gone.  A file that is new is its own, and unless it
is gone now it still holds what it held, as far as that is there. -/
lemma ClientStep.mover (h : ClientStep id s s') : ∃ i pc' files', s' = s.moveWith i pc' files' ∧
    s.pc i ≠ .Exited ∧ (∀ r ∈ files', r ∈ s.files ∨ ∃ kind ∈ pc'.kinds, (id i).path kind = r) ∧
      (pc' = .Exited ∨ ∀ kind ∈ (s.pc i).kinds, (id i).path kind ∈ files' → kind ∈ pc'.kinds) := by
  cases h with
  | @mkfifo i kind hpc hnew =>
      refine ⟨i, _, _, rfl, by simp [hpc], ?_, Or.inr ?_⟩
      · rintro r (rfl | hr)
        · refine Or.inr ⟨kind, ?_, rfl⟩
          rw [ClientPc.kinds_afterMaking]
          exact Set.mem_insert kind _
        · exact Or.inl hr
      · intro kind' hkind' _
        rw [ClientPc.kinds_afterMaking]
        rw [hpc] at hkind'
        exact Or.inr hkind'
  | mkfifoFails i hpc =>
      exact ⟨i, .Exited, s.files, rfl, by simp [hpc], fun _ hr => Or.inl hr, Or.inl rfl⟩
  | connects i hpc =>
      refine ⟨i, .Connected, s.files, rfl, by simp [hpc], fun _ hr => Or.inl hr, Or.inr ?_⟩
      intro kind _ _
      exact kinds_connected kind
  | connectFails i hpc =>
      exact ⟨i, .Exited, s.files, rfl, by simp [hpc], fun _ hr => Or.inl hr, Or.inl rfl⟩
  | disconnects i hpc =>
      refine ⟨i, .Unlinking .Req, s.files, rfl, by simp [hpc], fun _ hr => Or.inl hr, Or.inr ?_⟩
      intro kind _ _
      cases kind <;> simp [ClientPc.kinds]
  | @unlinks i kind hpc =>
      refine ⟨i, _, _, rfl, by simp [hpc], fun _ hr => Or.inl hr.1, Or.inr ?_⟩
      intro kind' hkind' hfile
      rw [ClientPc.kinds_afterUnlinking]
      rw [hpc] at hkind'
      refine ⟨hkind', ?_⟩
      rintro rfl
      exact hfile.2 rfl
  | killed i hpc => exact ⟨i, .Exited, s.files, rfl, hpc, fun _ hr => Or.inl hr, Or.inl rfl⟩

/-- A client on its own in its identifier: the others are gone, and of its FIFOs those are there that
it has made. -/
structure Alone (id : ι → ClientId) (j : ι) (s : ClientsState ι) : Prop where
  others : ∀ i, i ≠ j → id i = id j → s.pc i = .Exited
  own : s.pc j = .Exited ∨ ∀ kind, (id j).path kind ∈ s.files → kind ∈ (s.pc j).kinds

lemma Alone.step {j : ι} (h : Alone id j s) (hstep : ClientStep id s s') : Alone id j s' := by
  obtain ⟨i, pc', files', rfl, hmoves, hnew, hkept⟩ := hstep.mover
  by_cases hij : i = j
  · subst hij
    refine ⟨fun k hk hid => (Function.update_of_ne hk _ _).trans (h.others k hk hid), ?_⟩
    have hpc : (s.moveWith i pc' files').pc i = pc' := Function.update_self _ _ _
    rw [hpc]
    refine hkept.imp_right fun hkept kind hfile => ?_
    rcases hnew _ hfile with hold | ⟨kind', hkind', hpath⟩
    · exact hkept kind (h.own.resolve_left hmoves kind hold) hfile
    · rwa [← (ClientId.path_injective hpath).2]
  · have hid : id i ≠ id j := fun hid => hmoves (h.others i hij hid)
    have hpc : (s.moveWith i pc' files').pc j = s.pc j := Function.update_of_ne (Ne.symm hij) _ _
    refine ⟨fun k hk hkid => ?_, ?_⟩
    · have hki : k ≠ i := by
        rintro rfl
        exact hid hkid
      exact (Function.update_of_ne hki _ _).trans (h.others k hk hkid)
    · rw [hpc]
      refine h.own.imp_right fun hown kind hfile => ?_
      rcases hnew _ hfile with hold | ⟨kind', -, hpath⟩
      · exact hown kind hold
      · exact absurd (ClientId.path_injective hpath).1 hid

/-- **When a client makes its FIFOs.**  Once every other client of its identifier is gone: if none of
its three FIFOs is there, then whatever the other clients do meanwhile none of its calls of `mkfifo`
fails, it can come to opening them, and there is room for the message it connects with.  If one of
them is there, it never comes to opening them. -/
theorem client_makes_fifos {j : ι} (hj : s.pc j = .Making .Req)
    (halone : ∀ i, i ≠ j → id i = id j → s.pc i = .Exited) :
    ((∀ kind, (id j).path kind ∉ s.files) →
      (∀ s', Reachable (ClientStep id) s s' →
        ∀ kind, s'.pc j = .Making kind → (id j).path kind ∉ s'.files) ∧
      (∃ s', Reachable (ClientStep id) s s' ∧ s'.pc j = .Opening) ∧
      ∃ message, kvsConnect (id j).request = .ok message) ∧
    ((∃ kind, (id j).path kind ∈ s.files) →
      ∀ s', Reachable (ClientStep id) s s' → s'.pc j ≠ .Opening ∧ s'.pc j ≠ .Connected) := by
  constructor
  · intro hfree
    have hstart : Alone id j s := ⟨halone, Or.inr fun kind hfile => absurd hfile (hfree kind)⟩
    obtain ⟨s₁, hmoved, hopening⟩ : ∃ s₁, MovedAlone id j s s₁ ∧ s₁.pc j = .Opening :=
      exists_run_opening hj hfree
    refine ⟨fun s' hrun kind hpc hfile => ?_,
      ⟨s₁, hmoved.run.mono fun _ _ hstep => hstep.1, hopening⟩, (id j).kvsConnect_ok⟩
    have hend : Alone id j s' := hrun.invariant (Alone id j) hstart fun _ _ h hstep => h.step hstep
    have hmade := hend.own.resolve_left (by simp [hpc]) kind hfile
    rw [hpc] at hmade
    exact ClientPc.not_mem_kinds_making kind hmade
  · rintro ⟨kind, hfile⟩ s' hrun
    have horphan : Orphaned s.files (s.holds id) ((id j).path kind) := by
      refine ⟨hfile, fun i hi => ?_⟩
      obtain ⟨kind', hkind', hpath⟩ := hi
      have hid := (ClientId.path_injective hpath).1
      by_cases hij : i = j
      · rw [hij, hj] at hkind'
        exact hkind'
      · rw [halone i hij hid] at hkind'
        exact hkind'
    obtain ⟨-, hnone⟩ := orphaned_of_reachable hrun horphan
    have hlost := hnone j
    rw [ClientsState.holds, ClientPc.mem_paths] at hlost
    constructor
    · intro hpc
      rw [hpc] at hlost
      exact hlost (by cases kind <;> simp [ClientPc.kinds])
    · intro hpc
      rw [hpc] at hlost
      exact hlost (kinds_connected kind)

/-- The other one is gone.  Where no files are the client makes its three; where the last one is there
already it does not come to opening them. -/
theorem client_makes_fifos_two :
    (∃ s', Reachable (ClientStep sameId) ((ClientsState.initial ∅).moveTo false .Exited) s' ∧
      s'.pc true = .Opening) ∧
    ∀ s', Reachable (ClientStep sameId)
        ((ClientsState.initial {(sameId true).path .Notif}).moveTo false .Exited) s' →
      s'.pc true ≠ .Opening := by
  have halone : ∀ files : Set CString, ∀ i, i ≠ true → sameId i = sameId true →
      ((ClientsState.initial files).moveTo false .Exited).pc i = .Exited := by
    intro files i hi _
    obtain rfl : i = false := by simpa using hi
    rfl
  constructor
  · obtain ⟨-, hopening, -⟩ := (client_makes_fifos rfl (halone ∅)).1 fun _ hfile => hfile
    exact hopening
  · intro s' hrun
    have hthere : ∃ kind, (sameId true).path kind ∈
        ((ClientsState.initial {(sameId true).path .Notif}).moveTo false .Exited).files :=
      ⟨.Notif, Set.mem_singleton _⟩
    exact ((client_makes_fifos rfl (halone _)).2 hthere s' hrun).1

/-! ## Leaving nothing behind -/

/-- **Tidy clients leave nothing behind.**  As long as each client unlinks its FIFOs before it is gone,
the files are those from before and the FIFOs of the clients that are there. -/
theorem client_fifos_accounted (h : Reachable (TidyClientStep id) (.initial files) s) (r : CString) :
    r ∈ s.files ↔ r ∈ files ∨ ∃ i, ∃ kind ∈ (s.pc i).kinds, (id i).path kind = r := by
  have hinvariant : Exclusive s.files (s.holds id) ∧
      (∀ r ∈ files, Orphaned s.files (s.holds id) r) ∧ Accounted files s.files (s.holds id) := by
    refine h.invariant (fun s => Exclusive s.files (s.holds id) ∧
      (∀ r ∈ files, Orphaned s.files (s.holds id) r) ∧ Accounted files s.files (s.holds id)) ?_ ?_
    · refine ⟨?_, fun r hr => ClientsState.orphaned_initial id hr, ?_⟩
      · rw [ClientsState.holds_initial]
        exact .nothing files
      · rw [ClientsState.holds_initial]
        exact .nothing files
    · rintro s s' ⟨hexclusive, hbase, haccounted⟩ ⟨hstep, htidy⟩
      obtain ⟨i, held', hholds, hmove⟩ := hstep.move
      have hheld' : held' = s'.holds id i := by rw [hholds, Function.update_self]
      rw [hholds]
      refine ⟨hexclusive.move hmove, fun r hr => (hbase r hr).move hmove,
        haccounted.move hexclusive hbase hmove ?_⟩
      rintro r ⟨kind, hkind, rfl⟩
      rw [hheld', ClientsState.holds, ClientPc.mem_paths]
      exact htidy i kind hkind
  exact hinvariant.2.2 r

/-- One of two clients makes its FIFOs, is connected, disconnects and unlinks them. -/
theorem client_fifos_accounted_two : ∃ s₁ s₂ : ClientsState Bool,
    Reachable (TidyClientStep sameId) (.initial ∅) s₁ ∧ s₁.pc true = .Connected ∧
    (∀ kind, (sameId true).path kind ∈ s₁.files) ∧
    Reachable (TidyClientStep sameId) s₁ s₂ ∧ s₂.pc true = .Exited ∧ s₂.files = ∅ := by
  obtain ⟨s₁, h₁, hconnected⟩ : ∃ s, MovedAlone sameId true (.initial ∅) s ∧
      s.pc true = .Connected := exists_run_connected rfl fun _ h => h
  obtain ⟨s₂, h₂, hexited⟩ : ∃ s, MovedAlone sameId true s₁ s ∧ s.pc true = .Exited :=
    exists_run_unlinked hconnected
  have hfalse : s₂.pc false = .Making .Req :=
    (h₂.others false (by decide)).trans (h₁.others false (by decide))
  refine ⟨s₁, s₂, h₁.run, hconnected, fun kind => ?_, h₂.run, hexited, ?_⟩
  · refine (client_fifos_accounted h₁.run _).mpr (Or.inr ⟨true, kind, ?_, rfl⟩)
    rw [hconnected]
    exact kinds_connected kind
  · refine Set.eq_empty_of_forall_notMem fun r hr => ?_
    have hrun := h₁.run.trans h₂.run
    rcases (client_fifos_accounted hrun r).mp hr with hbase | ⟨i, kind, hkind, -⟩
    · exact hbase
    · cases i with
      | true =>
          rw [hexited] at hkind
          exact hkind
      | false =>
          rw [hfalse] at hkind
          exact hkind

end Clients

end Kvs
