import FLChat.Messages.Sent

/-!
# Records and index entries

What holds of the database in every state of a run: a record is the one its step wrote and is never
rewritten or removed, an entry of `users_messages` belongs to a record that is already there, and a
single read of an announced message therefore finds it.
-/

namespace FLChat.Messages

open Realtime

variable {jpegData : UIImage → Option Data} {user : Client → Option UID} {s₀ s s' : MState}
  {ok : MState → MLabel → Prop}

def Action.changesAccount : Action → Bool
  | .signOut _ | .signIn _ _ => true
  | _ => false

/-- Nobody signs in or out in this step. -/
def SameAccounts : MLabel → Prop
  | .press a _ => a.changesAccount = false
  | _ => True

instance : DecidablePred SameAccounts
  | .press a _ => inferInstanceAs (Decidable (a.changesAccount = false))
  | .run _ _ | .commit _ _ | .serve _ _ | .die _ => isTrue trivial

def Loc.isMessage : Loc → Prop
  | .messages _ => True
  | .usersMessages .. => False

/-! ## Who is signed in -/

theorem handleSend_currentUser (c : Client) (vc : MessageVC) (text : String)
    (url : Option DownloadURL) (img : Option UIImage) (e : Env) (app : App) :
    (handleSend c vc text url img e app).1.currentUser = app.currentUser := by
  unfold handleSend
  cases app.currentUser c <;> cases url <;> cases img <;> rfl

theorem upload_currentUser (vc : MessageVC) (image : UIImage) (app : App) :
    (uploadToStorageUsingImage jpegData vc image app).1.currentUser = app.currentUser := by
  unfold uploadToStorageUsingImage
  split
  · rfl
  · split <;> rfl

theorem handle_currentUser (c : Client) (e : Env) (cb : Cb) (input : Input Loc) (app : App) :
    (handle c e cb input app).1.currentUser = app.currentUser := by
  unfold handle
  split
  · rfl
  split
  · rfl
  · rfl
  · unfold messageRead
    split
    · rfl
    · split <;> rfl
  · rfl
  · exact handleSend_currentUser ..
  · rfl

theorem act_currentUser {a : Action} {e : Env} {app app' : App} {c : Client}
    {cmds : List Command} (h : act jpegData a e app = some (c, app', cmds))
    (ha : SameAccounts (.press a e)) : app'.currentUser = app.currentUser := by
  unfold act at h
  split at h
  · cases h
  cases a with
  | viewDidAppear vc =>
    cases h
    rfl
  | sendBtnPressed vc text =>
    simp only at h
    split at h
    · cases h
    · obtain ⟨-, hsend⟩ := Prod.mk.inj (Option.some.inj h)
      have := handleSend_currentUser vc.client vc text none none e app
      rwa [hsend] at this
  | pickImage vc image =>
    obtain ⟨-, hupload⟩ := Prod.mk.inj (Option.some.inj h)
    have hsame : (uploadToStorageUsingImage jpegData vc image app).1.currentUser =
        app.currentUser := upload_currentUser vc image app
    rwa [hupload] at hsame
  | timerFired vc =>
    simp only at h
    split at h
    · cases h
      rfl
    · cases h
  | reloadCollection vc =>
    simp only at h
    split at h
    · cases h
    · cases h
      unfold reloadAndScroll
      split <;> rfl
  | signOut | signIn => cases ha

/-- The account of each device is the one it started with. -/
theorem currentUser_of_reaches (hstay : ∀ s l, ok s l → SameAccounts l)
    (h : Reaches (step (program jpegData)) ok s₀ s) :
    s.app.currentUser = s₀.app.currentUser := by
  refine h.invariant (I := fun s => s.app.currentUser = s₀.app.currentUser) rfl
    fun {t l u} ih hl hstep => ?_
  have hstay := hstay _ _ hl
  cases transition_of_step hstep with
  | press hkey hact => exact (act_currentUser hact hstay).trans ih
  | @run i e task app cmds hkey ht hrun =>
    have := handle_currentUser task.client e task.cb task.input t.app
    rw [show handle task.client e task.cb task.input t.app = (app, cmds) from hrun] at this
    exact this.trans ih
  | apply | reject | serve | die => exact ih

theorem signedIn_of_reaches (hstay : ∀ s l, ok s l → SameAccounts l)
    (h : Reaches (step (program jpegData)) ok s₀ s) (l : MLabel) :
    (SignedIn s₀.app.currentUser).Holds s l := by
  have huser := currentUser_of_reaches hstay h
  cases l with
  | press => exact huser
  | run => exact fun _ _ => huser
  | commit | serve | die => trivial

/-! ## The history of a state -/

/-- What the backend guarantees of every state of a run. -/
structure History (jpegData : UIImage → Option Data) (user : Client → Option UID) (s : MState) :
    Prop where
  origin : Origin (program jpegData) (SignedIn user) s
  keys : KeysFresh s
  kept : PresentOrRemoved s

theorem History.of_reaches (hs : Initial s₀) (htree : s₀.tree = ∅)
    (hstay : ∀ s l, ok s l → SameAccounts l) (h : Reaches (step (program jpegData)) ok s₀ s) :
    History jpegData s₀.app.currentUser s where
  origin := .of_reaches hs htree (fun ht _ => signedIn_of_reaches hstay ht _) h
  keys := .of_reaches hs h
  kept := .of_reaches hs h

namespace History

variable {c : Client} {id : String}

/-- A message is known by its id. -/
theorem sent_unique (h : History jpegData user s) {m m' : Sent} (hm : m ∈ sentMessages user s.log)
    (hm' : m' ∈ sentMessages user s.log) (hid : m.id = m'.id) : m = m' := by
  obtain ⟨ev, hev, hs⟩ := mem_sentMessages.1 hm
  obtain ⟨ev', hev', hs'⟩ := mem_sentMessages.1 hm'
  have := h.keys.event_eq hev hev' (key_of_sentBy hs) (hid ▸ key_of_sentBy hs')
  rw [this, hs'] at hs
  exact (Option.some.inj hs).symm

theorem sent_of_issued {log : List MEvent} {v : MessageDict} {cb : Option Cb}
    (h : Issued (program jpegData) (SignedIn user) log c (.write (.update (.messages id) v) cb)) :
    ∃ m ∈ sentMessages user log, m.id = id ∧ v = m.value ∧
      cb = some (.messageWritten m.fromId m.toId m.id) := by
  obtain ⟨ev, hev, hi⟩ := issues_of_issued h
  cases hi with
  | send hm => exact ⟨_, mem_sentMessages.2 ⟨ev, hev, hm⟩, rfl, rfl, rfl⟩

/-- The record that a written message left is the one it was sent with. -/
theorem sent_of_resolved (h : History jpegData user s) {v : MessageDict} {b : Bool}
    (hr : .resolved c (.update (.messages id) v) b ∈ s.log) :
    ∃ m ∈ sentMessages user s.log, m.id = id ∧ v = m.value := by
  obtain ⟨cb, hi⟩ := h.origin.log _ hr
  obtain ⟨m, hm, hid, hv, -⟩ := sent_of_issued hi
  exact ⟨m, hm, hid, hv⟩

/-- Nothing is ever removed. -/
theorem not_issued_remove {log : List MEvent} {p : Path} {cb : Option Cb} :
    ¬ Issued (program jpegData) (SignedIn user) log c (.write (.remove p) cb) := by
  intro h
  obtain ⟨ev, -, hi⟩ := issues_of_issued h
  cases hi

theorem not_issued_value {log : List MEvent} {l : Loc} {cb : Cb} :
    ¬ Issued (program jpegData) (SignedIn user) log c (.ask (.value l cb)) := by
  intro h
  obtain ⟨ev, -, hi⟩ := issues_of_issued h
  cases hi

theorem mem_tree (h : History jpegData user s) {l : Loc} {v : Val l}
    (hr : .resolved c (.update l v) true ∈ s.log) : l ∈ s.tree := by
  rcases h.kept c l v hr with hl | ⟨c', p, hp, -⟩
  · exact hl
  · obtain ⟨cb, hi⟩ := h.origin.log _ hp
    exact absurd hi not_issued_remove

/-- The completion of a record runs only after the record is there. -/
theorem sent_of_messageWritten (h : History jpegData user s) {fromId toId : UID} {e : Env}
    (hr : .ran ⟨c, .messageWritten fromId toId id, .acked true⟩ e ∈ s.log) :
    ∃ m ∈ sentMessages user s.log, m.id = id ∧ m.fromId = fromId ∧ m.toId = toId ∧
      Loc.messages id ∈ s.tree := by
  obtain ⟨op, hi, hr⟩ := h.origin.log _ hr
  obtain ⟨ev, hev, hi⟩ := issues_of_issued hi
  cases hi with
  | send hm => exact ⟨_, mem_sentMessages.2 ⟨ev, hev, hm⟩, rfl, rfl, rfl, h.mem_tree hr⟩

/-- An index entry belongs to a message of the two users, whose record is there. -/
theorem sent_of_index (h : History jpegData user s) {u v : UID} {n : ℕ} {b : Bool}
    (hr : .resolved c (.update (.usersMessages u v id) n) b ∈ s.log) :
    ∃ m ∈ sentMessages user s.log, m.id = id ∧ m.Between u v ∧ Loc.messages id ∈ s.tree := by
  obtain ⟨cb, hi⟩ := h.origin.log _ hr
  obtain ⟨ev, hev, hi⟩ := issues_of_issued hi
  cases hi with
  | index =>
    obtain ⟨m, hm, hid, hfrom, hto, ht⟩ := h.sent_of_messageWritten hev
    exact ⟨m, hm, hid, .inl ⟨hfrom, hto⟩, ht⟩
  | recipientIndex =>
    obtain ⟨m, hm, hid, hfrom, hto, ht⟩ := h.sent_of_messageWritten hev
    exact ⟨m, hm, hid, .inr ⟨hfrom, hto⟩, ht⟩

/-- An announced message is a message of the conversation that the observer watches, and its record
is there. -/
theorem sent_of_messageAdded (h : History jpegData user s) {call : Call}
    (ht : TaskOrigin (program jpegData) (SignedIn user) s.log
      ⟨c, .messageAdded call, .childAdded id⟩) :
    ∃ uid, user call.vc.client = some uid ∧ ∃ m ∈ sentMessages user s.log, m.id = id ∧
      m.Between uid call.vc.uid ∧ Loc.messages id ∈ s.tree := by
  obtain ⟨p, l, c', v, hi, hr, hk⟩ := ht
  obtain ⟨ev, hev, hi⟩ := issues_of_issued hi
  cases hi with
  | @observe vc e uid hu =>
    refine ⟨uid, hu, ?_⟩
    cases l with
    | messages id' => simp [Tree.childKey, userMessagesPath, path] at hk
    | usersMessages u w id' =>
      simp only [Tree.childKey, userMessagesPath, path, List.isPrefixOf_cons_cons, beq_self_eq_true,
        List.isPrefixOf_nil_left, Bool.and_true, Bool.true_and, List.length_cons, List.length_nil,
        Nat.zero_add, List.getElem?_cons_succ, List.getElem?_cons_zero] at hk
      split at hk
      · next hp =>
        simp only [Bool.and_eq_true, beq_iff_eq] at hp
        cases hk
        obtain ⟨rfl, rfl⟩ := hp
        exact h.sent_of_index hr
      · cases hk

/-- A call that reads messages was made by an appearance. -/
theorem viewDidAppear_of_messageRead (h : History jpegData user s) {call : Call} {l : Loc}
    {v : Option (Val l)} {e : Env}
    (hr : .ran ⟨c, .messageRead call, .value l v⟩ e ∈ s.log) :
    ∃ e, call.id = e.key ∧ .pressed (.viewDidAppear call.vc) e ∈ s.log := by
  rcases h.origin.log _ hr with hi | hi
  · obtain ⟨ev, hev, hi⟩ := issues_of_issued hi
    cases hi with
    | read =>
      obtain ⟨p, l, c', v, hi, -, -⟩ := h.origin.log _ hev
      obtain ⟨ev', hev', hi⟩ := issues_of_issued hi
      cases hi with
      | observe => exact ⟨_, rfl, hev'⟩
  · exact absurd hi not_issued_value

/-- A record in the tree is the one its message was sent with. -/
theorem valuesWritten (hs : Initial s₀) (htree : s₀.tree = ∅)
    (hstay : ∀ s l, ok s l → SameAccounts l) (h : Reaches (step (program jpegData)) ok s₀ s) :
    ValuesWritten Loc.isMessage s := by
  refine .of_reaches htree (fun ht w hw l new hl hop c old hr => ?_) h
  have hist := History.of_reaches hs htree hstay ht
  cases l with
  | usersMessages => exact hl.elim
  | messages id =>
    obtain ⟨m, hm, hid, rfl⟩ := hist.sent_of_resolved hr
    have hi := hist.origin.writes w hw
    rw [hop] at hi
    obtain ⟨m', hm', hid', rfl, -⟩ := sent_of_issued hi
    rw [hist.sent_unique hm' hm (hid'.trans hid.symm)]
    exact MessageDict.updateChildValues_self _

/-- Where a record is, every client reads it as it was sent. -/
theorem lookup_view_of_mem (h : History jpegData user s) (hv : ValuesWritten Loc.isMessage s)
    (hmem : Loc.messages id ∈ s.tree) {m : Sent} (hm : m ∈ sentMessages user s.log)
    (hid : m.id = id) : (s.view c).lookup (.messages id) = some m.value := by
  have hlookup : s.tree.lookup (.messages id) = some m.value := by
    obtain ⟨v, hv'⟩ := Option.isSome_iff_exists.1 (AList.lookup_isSome.2 hmem)
    obtain ⟨c', hr⟩ := hv (.messages id) v trivial hv'
    obtain ⟨m', hm', hid', rfl⟩ := h.sent_of_resolved hr
    rw [hv', h.sent_unique hm' hm (hid'.trans hid.symm)]
  refine lookup_view hlookup (MessageDict.updateChildValues_self _) fun w hw _ ht => ?_
  have hi := h.origin.writes w hw
  obtain ⟨c', op, cb⟩ := w
  cases op with
  | update l v =>
    obtain rfl : l = .messages id := of_decide_eq_true ht
    obtain ⟨m', hm', hid', rfl, -⟩ := sent_of_issued hi
    rw [h.sent_unique hm' hm (hid'.trans hid.symm)]
  | remove p => exact absurd hi not_issued_remove

end History

/-- Every reply to the single read of an announced message carries the message as it was sent, and
the message belongs to the conversation of the view controller. -/
theorem sent_of_messageRead (hs : Initial s₀) (htree : s₀.tree = ∅)
    (hstay : ∀ s l, ok s l → SameAccounts l) (h : Reaches (step (program jpegData)) ok s₀ s)
    {c : Client} {call : Call} {l : Loc} {v : Option (Val l)}
    (hdue : Due s ⟨c, .messageRead call, .value l v⟩) :
    ∃ uid, s₀.app.currentUser call.vc.client = some uid ∧
      ∃ m ∈ sentMessages s₀.app.currentUser s.log, m.Between uid call.vc.uid ∧
        (⟨l, v⟩ : (l : Loc) × Option (Val l)) = ⟨.messages m.id, some m.value⟩ := by
  obtain ⟨u, hu, hus, hread⟩ := reply_of_reaches hs h hdue
  have hist := History.of_reaches hs htree hstay hu
  have hval := History.valuesWritten hs htree hstay hu
  have hlog : ∀ m ∈ sentMessages s₀.app.currentUser u.log,
      m ∈ sentMessages s₀.app.currentUser s.log := fun m hm => by
    obtain ⟨ev, hev, hm⟩ := mem_sentMessages.1 hm
    exact mem_sentMessages.2 ⟨ev, (log_suffix hus).mem hev, hm⟩
  rcases hread with ⟨ha | ha, rfl⟩ | ⟨w, -, ho, -⟩
  · obtain ⟨ev, hev, hi⟩ := issues_of_issued (hist.origin.asks _ ha)
    cases hi with
    | read =>
      obtain ⟨uid, huid, m, hm, rfl, hbetween, hmem⟩ :=
        hist.sent_of_messageAdded (hist.origin.log _ hev)
      refine ⟨uid, huid, m, hlog m hm, hbetween, ?_⟩
      rw [hist.lookup_view_of_mem hval hmem hm rfl]
  · exact absurd (hist.origin.asks _ ha) History.not_issued_value
  · exact absurd (hist.origin.valueObs _ ho) History.not_issued_value

end FLChat.Messages
