import FLChat.Realtime.Run
import FLChat.Realtime.Tree
import Mathlib.Tactic.Simps.Basic

/-!
# Clients of a realtime backend

A number of clients share one tree and one object store. A client never waits: it issues writes and
requests, each with the callback that is to run when the server answers, and the callbacks issue
the next ones. A program says what the user can press (`Program.act`) and what each callback does
(`Program.handle`); everything else is the same for all programs and is defined here:

* one client's writes are applied in the order in which they were issued, and the completion of a
  write runs with `ok = true` exactly when the server accepted it;
* a child observer is told once about each child present when it is attached and again about each
  child added later, and it stays attached;
* a read is answered with the value at the time the server serves it, the client's own queued
  writes included; a value observer is told again whenever a write touches its location;
* an upload replaces the object at its path, and a download URL designates the path and the upload
  it was drawn for.

Replies and events wait in `tasks` and are delivered in any order after any delay. A key drawn by
`childByAutoId` is one that no step was given before (`issued`). The log keeps what happened, most
recent first; no program reads it.

Left out is what a client's own writes do to its events. The SDK raises them from the client's view
of the tree: an own write is told when it is issued, what others add below an own removal that waits
is not told, and a rejected removal tells again what it had hidden. Here the events of a write are
raised when the server applies it, at every observer, and a rejected write raises none. `LocalView`
says where the two rules agree. So a run in which others add below a removal that waits, or in which
a removal is rejected, is a run of the program under an assumption about the SDK; results that need
it name it among their conditions.
-/

namespace Realtime

/-- What a download URL designates: an object path, and the upload it was drawn for. -/
structure DownloadURL where
  path : Path
  token : Nat
  deriving DecidableEq, Repr

/-- An object of the store. Each upload to a path gets a new token. -/
structure Object (Blob : Type) where
  token : Nat
  content : Blob

/-- What a step takes from outside: the key that `childByAutoId` draws in it and the clock. -/
structure Env where
  key : String
  now : Nat
  deriving DecidableEq, Repr

/-- A request to the server, with the callback for its answers. -/
inductive Ask (Loc Cb Blob : Type)
  | childAdded (p : Path) (cb : Cb)
  | value (l : Loc) (cb : Cb)
  | single (l : Loc) (cb : Cb)
  | putData (p : Path) (data : Blob) (cb : Cb)
  | downloadURL (p : Path) (cb : Cb)

/-- What a callback is called with. -/
inductive Input (Loc : Type) [Schema Loc]
  | acked (ok : Bool)
  | childAdded (key : String)
  | value (l : Loc) (v : Option (Val l))
  | stored (ok : Bool)
  | url (u : Option DownloadURL)

/-- What a press or a callback issues. -/
inductive Cmd (Loc Cb Blob : Type) [Schema Loc]
  | write (op : Op Loc) (completion : Option Cb)
  | ask (a : Ask Loc Cb Blob)

/-- A write on its way to the server. -/
structure Write (Loc Client Cb : Type) [Schema Loc] where
  client : Client
  op : Op Loc
  completion : Option Cb

/-- A callback that is due on a client. -/
structure Task (Loc Client Cb : Type) [Schema Loc] where
  client : Client
  cb : Cb
  input : Input Loc

/-- A live `.childAdded` observer. -/
structure ChildObserver (Client Cb : Type) where
  client : Client
  path : Path
  cb : Cb

/-- A live `.value` observer. -/
structure ValueObserver (Loc Client Cb : Type) where
  client : Client
  loc : Loc
  cb : Cb

/-- What the log keeps. -/
inductive Event (Loc Client Cb Blob Action : Type) [Schema Loc]
  | pressed (a : Action) (e : Env)
  | ran (t : Task Loc Client Cb) (e : Env)
  | resolved (c : Client) (op : Op Loc) (ok : Bool)
  | served (c : Client) (a : Ask Loc Cb Blob) (ok : Bool)
  | died (c : Client)

/-- The program that runs on the clients. `act` is `none` where the press is not possible. -/
structure Program (Loc Client Cb Blob App Action : Type) [Schema Loc] where
  act : Action → Env → App → Option (Client × App × List (Cmd Loc Cb Blob))
  handle : Client → Env → Cb → Input Loc → App → App × List (Cmd Loc Cb Blob)
  die : Client → App → App

/-- A state of the whole system. -/
structure State (Loc Client Cb Blob App Action : Type) [Schema Loc] where
  tree : Tree Loc
  objects : Path → Option (Object Blob)
  writes : List (Write Loc Client Cb)
  asks : List (Client × Ask Loc Cb Blob)
  tasks : List (Task Loc Client Cb)
  childObs : List (ChildObserver Client Cb)
  valueObs : List (ValueObserver Loc Client Cb)
  issued : List String
  log : List (Event Loc Client Cb Blob Action)
  app : App

/-- The steps of the system. `run` and `press` take the key and the clock; `commit` and `serve`
say whether the server accepts. -/
inductive Label (Client Action : Type)
  | press (a : Action) (e : Env)
  | run (i : Nat) (e : Env)
  | commit (i : Nat) (ok : Bool)
  | serve (i : Nat) (ok : Bool)
  | die (c : Client)

/-- Nothing fails in this step. -/
def Label.succeeds {Client Action : Type} : Label Client Action → Bool
  | .press .. | .run .. => true
  | .commit _ ok | .serve _ ok => ok
  | .die _ => false

variable {Loc Client Cb Blob App Action : Type} [Schema Loc]

/-! ## What a step changes -/

/-- The writes among the commands, tagged with their client. -/
def newWrites (c : Client) (cmds : List (Cmd Loc Cb Blob)) : List (Write Loc Client Cb) :=
  cmds.filterMap fun
    | .write op cb => some ⟨c, op, cb⟩
    | .ask _ => none

/-- The requests among the commands, tagged with their client. -/
def newAsks (c : Client) (cmds : List (Cmd Loc Cb Blob)) : List (Client × Ask Loc Cb Blob) :=
  cmds.filterMap fun
    | .write .. => none
    | .ask a => some (c, a)

/-- The completion of a write, if it has one. -/
def Write.ack (w : Write Loc Client Cb) (ok : Bool) : List (Task Loc Client Cb) :=
  w.completion.toList.map fun cb => ⟨w.client, cb, .acked ok⟩

/-- The child observer that a request attaches. -/
def Ask.childObserver (c : Client) : Ask Loc Cb Blob → List (ChildObserver Client Cb)
  | .childAdded p cb => [⟨c, p, cb⟩]
  | _ => []

/-- The value observer that a request attaches. -/
def Ask.valueObserver (c : Client) : Ask Loc Cb Blob → List (ValueObserver Loc Client Cb)
  | .value l cb => [⟨c, l, cb⟩]
  | _ => []

/-- The objects after a request is served. -/
def Ask.store (a : Ask Loc Cb Blob) (ok : Bool) (objects : Path → Option (Object Blob)) :
    Path → Option (Object Blob) :=
  match a, ok with
  | .putData p data _, true =>
    fun q => if q = p then some ⟨match objects p with | none => 0 | some o => o.token + 1, data⟩
      else objects q
  | _, _ => objects

namespace State

/-- The tree as client `c` sees it: its own queued writes are already in it. -/
def view [DecidableEq Loc] [DecidableEq Client] (s : State Loc Client Cb Blob App Action)
    (c : Client) : Tree Loc :=
  (s.writes.filter (fun w => decide (w.client = c))).foldl (fun t w => w.op.apply t) s.tree

/-- The tasks with which the server answers a request. -/
def answer [DecidableEq Loc] [DecidableEq Client] (s : State Loc Client Cb Blob App Action)
    (c : Client) (a : Ask Loc Cb Blob) (ok : Bool) : List (Task Loc Client Cb) :=
  match a with
  | .childAdded p cb => (s.tree.children p).map fun k => ⟨c, cb, .childAdded k⟩
  | .value l cb | .single l cb => [⟨c, cb, .value l ((s.view c).lookup l)⟩]
  | .putData _ _ cb => [⟨c, cb, .stored ok⟩]
  | .downloadURL p cb =>
    [⟨c, cb, .url (if ok then (s.objects p).map (fun o => ⟨p, o.token⟩) else none)⟩]

/-- The events that a write raises at the child observers: one for each observer of a path below
which the write adds a child that was not there. -/
def childEvents (s : State Loc Client Cb Blob App Action) : Op Loc → List (Task Loc Client Cb)
  | .update l _ => s.childObs.filterMap fun o =>
    match Tree.childKey o.path l with
    | none => none
    | some k => if k ∈ s.tree.children o.path then none else some ⟨o.client, o.cb, .childAdded k⟩
  | .remove _ => []

/-- The events that a write raises at the value observers. -/
def valueEvents [DecidableEq Loc] (s : State Loc Client Cb Blob App Action) (op : Op Loc) :
    List (Task Loc Client Cb) :=
  s.valueObs.filterMap fun o =>
    if op.touches o.loc then some ⟨o.client, o.cb, .value o.loc ((op.apply s.tree).lookup o.loc)⟩
    else none

/-- What a download URL yields. Once its upload has been replaced, it yields what is at its path by
then or nothing, as `follows` says. -/
def resolve (s : State Loc Client Cb Blob App Action) (follows : DownloadURL → Bool)
    (u : DownloadURL) : Option Blob :=
  match s.objects u.path with
  | none => none
  | some o => if o.token = u.token ∨ follows u then some o.content else none

/-- A press issues its commands. -/
@[simps] def pressed (s : State Loc Client Cb Blob App Action) (a : Action) (e : Env) (c : Client)
    (app : App) (cmds : List (Cmd Loc Cb Blob)) : State Loc Client Cb Blob App Action :=
  { s with
    app := app
    writes := s.writes ++ newWrites c cmds
    asks := s.asks ++ newAsks c cmds
    issued := e.key :: s.issued
    log := .pressed a e :: s.log }

/-- The task at `i` runs and issues its commands. -/
@[simps] def ran (s : State Loc Client Cb Blob App Action) (i : Nat) (t : Task Loc Client Cb)
    (e : Env) (app : App) (cmds : List (Cmd Loc Cb Blob)) :
    State Loc Client Cb Blob App Action :=
  { s with
    app := app
    tasks := s.tasks.eraseIdx i
    writes := s.writes ++ newWrites t.client cmds
    asks := s.asks ++ newAsks t.client cmds
    issued := e.key :: s.issued
    log := .ran t e :: s.log }

/-- The server accepts the write at `i`. -/
@[simps] def applied [DecidableEq Loc] (s : State Loc Client Cb Blob App Action) (i : Nat)
    (w : Write Loc Client Cb) : State Loc Client Cb Blob App Action :=
  { s with
    tree := w.op.apply s.tree
    writes := s.writes.eraseIdx i
    tasks := s.tasks ++ (s.childEvents w.op ++ s.valueEvents w.op ++ w.ack true)
    log := .resolved w.client w.op true :: s.log }

/-- The server rejects the write at `i`. -/
@[simps] def rejected (s : State Loc Client Cb Blob App Action) (i : Nat)
    (w : Write Loc Client Cb) : State Loc Client Cb Blob App Action :=
  { s with
    writes := s.writes.eraseIdx i
    tasks := s.tasks ++ w.ack false
    log := .resolved w.client w.op false :: s.log }

/-- The server serves the request at `i`. -/
@[simps] def served [DecidableEq Loc] [DecidableEq Client]
    (s : State Loc Client Cb Blob App Action) (i : Nat) (c : Client) (a : Ask Loc Cb Blob)
    (ok : Bool) : State Loc Client Cb Blob App Action :=
  { s with
    objects := a.store ok s.objects
    asks := s.asks.eraseIdx i
    childObs := s.childObs ++ a.childObserver c
    valueObs := s.valueObs ++ a.valueObserver c
    tasks := s.tasks ++ s.answer c a ok
    log := .served c a ok :: s.log }

/-- The process of client `c` ends: what it had under way is lost. -/
@[simps] def died [DecidableEq Client] (s : State Loc Client Cb Blob App Action) (c : Client)
    (app : App) : State Loc Client Cb Blob App Action :=
  { s with
    app := app
    writes := s.writes.filter (fun w => decide (w.client ≠ c))
    asks := s.asks.filter (fun a => decide (a.1 ≠ c))
    tasks := s.tasks.filter (fun t => decide (t.client ≠ c))
    childObs := s.childObs.filter (fun o => decide (o.client ≠ c))
    valueObs := s.valueObs.filter (fun o => decide (o.client ≠ c))
    log := .died c :: s.log }

/-- No write of the same client waits before the one at `i`. -/
def FirstOfClient (s : State Loc Client Cb Blob App Action) (i : Nat) (c : Client) : Prop :=
  ∀ w ∈ s.writes.take i, w.client ≠ c

instance [DecidableEq Client] (s : State Loc Client Cb Blob App Action) (i : Nat) (c : Client) :
    Decidable (s.FirstOfClient i c) :=
  inferInstanceAs (Decidable (∀ w ∈ s.writes.take i, w.client ≠ c))

/-- Nothing is in flight. -/
structure Quiescent (s : State Loc Client Cb Blob App Action) : Prop where
  writes : s.writes = []
  asks : s.asks = []
  tasks : s.tasks = []

end State

/-! ## The step function -/

section Step

variable [DecidableEq Loc] [DecidableEq Client]

/-- One step of the system. -/
def step (P : Program Loc Client Cb Blob App Action) (s : State Loc Client Cb Blob App Action) :
    Label Client Action → Option (State Loc Client Cb Blob App Action)
  | .press a e =>
    if e.key ∈ s.issued then none
    else (P.act a e s.app).map fun (c, app, cmds) => s.pressed a e c app cmds
  | .run i e =>
    if e.key ∈ s.issued then none
    else s.tasks[i]?.map fun t =>
      let (app, cmds) := P.handle t.client e t.cb t.input s.app
      s.ran i t e app cmds
  | .commit i ok =>
    match s.writes[i]? with
    | none => none
    | some w =>
      if s.FirstOfClient i w.client then some (if ok then s.applied i w else s.rejected i w)
      else none
  | .serve i ok => s.asks[i]?.map fun (c, a) => s.served i c a ok
  | .die c => some (s.died c (P.die c s.app))

/-- What each step can do. -/
inductive Transition (P : Program Loc Client Cb Blob App Action)
    (s : State Loc Client Cb Blob App Action) :
    Label Client Action → State Loc Client Cb Blob App Action → Prop
  | press {a e c app cmds} (hkey : e.key ∉ s.issued) (hact : P.act a e s.app = some (c, app, cmds)) :
    Transition P s (.press a e) (s.pressed a e c app cmds)
  | run {i e t app cmds} (hkey : e.key ∉ s.issued) (ht : s.tasks[i]? = some t)
    (hrun : P.handle t.client e t.cb t.input s.app = (app, cmds)) :
    Transition P s (.run i e) (s.ran i t e app cmds)
  | apply {i w} (hw : s.writes[i]? = some w) (hfirst : s.FirstOfClient i w.client) :
    Transition P s (.commit i true) (s.applied i w)
  | reject {i w} (hw : s.writes[i]? = some w) (hfirst : s.FirstOfClient i w.client) :
    Transition P s (.commit i false) (s.rejected i w)
  | serve {i c a ok} (ha : s.asks[i]? = some (c, a)) :
    Transition P s (.serve i ok) (s.served i c a ok)
  | die {c} : Transition P s (.die c) (s.died c (P.die c s.app))

variable {P : Program Loc Client Cb Blob App Action} {s s' : State Loc Client Cb Blob App Action}
  {l : Label Client Action}

theorem transition_of_step (h : step P s l = some s') : Transition P s l s' := by
  cases l with
  | press a e =>
    simp only [step] at h
    split at h
    · cases h
    · next hkey =>
      obtain ⟨⟨c, app, cmds⟩, hact, rfl⟩ := Option.map_eq_some_iff.1 h
      exact .press hkey hact
  | run i e =>
    simp only [step] at h
    split at h
    · cases h
    · next hkey =>
      obtain ⟨t, ht, rfl⟩ := Option.map_eq_some_iff.1 h
      exact .run hkey ht rfl
  | commit i ok =>
    simp only [step] at h
    split at h
    · cases h
    · next w hw =>
      split at h
      · next hfirst =>
        cases ok with
        | true => cases h; exact .apply hw hfirst
        | false => cases h; exact .reject hw hfirst
      · cases h
  | serve i ok =>
    simp only [step] at h
    obtain ⟨⟨c, a⟩, ha, rfl⟩ := Option.map_eq_some_iff.1 h
    exact .serve ha
  | die c => cases h; exact .die

theorem step_of_transition (h : Transition P s l s') : step P s l = some s' := by
  cases h with
  | press hkey hact => simp [step, hkey, hact]
  | run hkey ht hrun => simp [step, hkey, ht, hrun]
  | apply hw hfirst => simp [step, hw, hfirst]
  | reject hw hfirst => simp [step, hw, hfirst]
  | serve ha => simp [step, ha]
  | die => rfl

/-! ## When processes end -/

/-- Client `c` has something in flight. -/
def State.Busy (s : State Loc Client Cb Blob App Action) (c : Client) : Prop :=
  (∃ w ∈ s.writes, w.client = c) ∨ (∃ a ∈ s.asks, a.1 = c) ∨ ∃ t ∈ s.tasks, t.client = c

omit [DecidableEq Loc] [DecidableEq Client] in
theorem State.quiescent_of_not_busy (h : ∀ c, ¬ s.Busy c) : s.Quiescent where
  writes := List.eq_nil_iff_forall_not_mem.2 fun w hw => h w.client (.inl ⟨w, hw, rfl⟩)
  asks := List.eq_nil_iff_forall_not_mem.2 fun a ha => h a.1 (.inr (.inl ⟨a, ha, rfl⟩))
  tasks := List.eq_nil_iff_forall_not_mem.2 fun t ht => h t.client (.inr (.inr ⟨t, ht, rfl⟩))

omit [DecidableEq Loc] in
theorem State.Busy.of_died {c c' : Client} {app : App} (h : (s.died c app).Busy c') :
    c' ≠ c ∧ s.Busy c' := by
  rcases h with ⟨w, hw, rfl⟩ | ⟨a, ha, rfl⟩ | ⟨t, ht, rfl⟩
  · obtain ⟨hw, hne⟩ := List.mem_filter.1 hw
    exact ⟨of_decide_eq_true hne, .inl ⟨w, hw, rfl⟩⟩
  · obtain ⟨ha, hne⟩ := List.mem_filter.1 ha
    exact ⟨of_decide_eq_true hne, .inr (.inl ⟨a, ha, rfl⟩)⟩
  · obtain ⟨ht, hne⟩ := List.mem_filter.1 ht
    exact ⟨of_decide_eq_true hne, .inr (.inr ⟨t, ht, rfl⟩)⟩

/-- Whatever the tree holds, it may hold with nothing in flight: the processes that are busy end. -/
theorem exists_quiescent {ok : State Loc Client Cb Blob App Action → Label Client Action → Prop}
    (hok : ∀ t c, ok t (.die c)) (s : State Loc Client Cb Blob App Action) :
    ∃ s', Reaches (step P) ok s s' ∧ s'.Quiescent ∧ s'.tree = s.tree := by
  have hends : ∀ (cs : List Client) (t : State Loc Client Cb Blob App Action),
      (∀ c, t.Busy c → c ∈ cs) →
        ∃ s', Reaches (step P) ok t s' ∧ s'.Quiescent ∧ s'.tree = t.tree := by
    intro cs
    induction cs with
    | nil =>
      intro t hbusy
      exact ⟨t, .refl, State.quiescent_of_not_busy fun c hc => List.not_mem_nil (hbusy c hc), rfl⟩
    | cons c cs ih =>
      intro t hbusy
      obtain ⟨s', hreach, hq, htree⟩ := ih (t.died c (P.die c t.app)) fun c' hc' => by
        obtain ⟨hne, hc'⟩ := hc'.of_died
        exact (List.mem_cons.1 (hbusy c' hc')).resolve_left hne
      exact ⟨s', (Reaches.refl.tail (hok t c) rfl).trans hreach, hq, htree⟩
  refine hends (s.writes.map (·.client) ++ s.asks.map (·.1) ++ s.tasks.map (·.client)) s fun c hc => ?_
  simp only [List.mem_append, List.mem_map]
  rcases hc with hw | ha | ht
  · exact .inl (.inl hw)
  · exact .inl (.inr ha)
  · exact .inr ht

end Step

end Realtime
