import FLChat.Messages.Integrity
import FLChat.Messages.Pictures
import FLChat.Realtime.Pending

/-!
# The author of a message

`handleSend` asks who is signed in when it runs. For a text that is the moment of the press; for a
picture it is the moment the URL comes back, after the upload went to the folder of whoever was
signed in at the pick. As long as nobody leaves a device or comes to it while one of its pictures is
under way, the author of every message is who sent it (`authors_of_reaches`); the change of account
in between gives the picture to the wrong author, or traps (`not_authors`).
-/

namespace FLChat.Messages

open Realtime

variable {jpegData : UIImage → Option Data} {user : Client → Option UID} {s₀ s s' : MState}
  {c : Client}

/-! ## Who is signed in when -/

/-- The accounts after an event. -/
def switchAccount : MEvent → (Client → Option UID) → Client → Option UID
  | .pressed (.signOut c) _, user => fun c' => if c' = c then none else user c'
  | .pressed (.signIn c uid) _, user => fun c' => if c' = c then some uid else user c'
  | _, user => user

/-- The accounts after the events of a log. -/
def accounts (user : Client → Option UID) (log : List MEvent) : Client → Option UID :=
  log.foldr switchAccount user

theorem currentUser_step {l : MLabel} (hs : Transition (program jpegData) s l s') :
    ∃ ev, s'.log = ev :: s.log ∧
      s'.app.currentUser = switchAccount ev s.app.currentUser := by
  cases hs with
  | @press a e c app cmds hkey hact =>
    refine ⟨_, rfl, ?_⟩
    rw [program_act] at hact
    cases a with
    | signOut c' | signIn c' uid =>
      unfold act at hact
      split at hact
      · cases hact
      · cases hact
        rfl
    | viewDidAppear | sendBtnPressed | pickImage | timerFired | reloadCollection =>
      exact act_currentUser hact rfl
  | @run i e t app cmds hkey ht hrun =>
    refine ⟨_, rfl, ?_⟩
    have happ : (handle t.client e t.cb t.input s.app).1 = app := congrArg Prod.fst hrun
    rw [State.ran_app, ← happ, handle_currentUser]
    rfl
  | apply | reject | serve | die => exact ⟨_, rfl, rfl⟩

theorem accounts_of_reaches {ok : MState → MLabel → Prop} (hs : Initial s₀)
    (h : Reaches (step (program jpegData)) ok s₀ s) :
    s.app.currentUser = accounts s₀.app.currentUser s.log := by
  refine h.invariant (I := fun s => s.app.currentUser = accounts s₀.app.currentUser s.log)
    (by rw [hs.log]; rfl) fun {t l u} ih _ hstep => ?_
  obtain ⟨ev, hlog, happ⟩ := currentUser_step (transition_of_step hstep)
  rw [happ, hlog, ih]
  rfl

/-- `uid` picked the picture. -/
def PickedBy (user : Client → Option UID) (log : List MEvent) (vc : MessageVC) (img : UIImage)
    (uid : UID) : Prop :=
  ∃ e before, .pressed (.pickImage vc img) e :: before <:+ log ∧
    accounts user before vc.client = some uid

/-- The message `id` was sent by `fromId`: the text was, or the picture was picked, and uploaded to
the folder of `fromId`. -/
inductive SentAs (user : Client → Option UID) (log : List MEvent) (id : String) (fromId : UID) :
    Prop
  | text {vc text e before} (h : .pressed (.sendBtnPressed vc text) e :: before <:+ log)
    (hid : e.key = id) (hu : accounts user before vc.client = some fromId)
  | picture {vc img url e} (h : .ran ⟨vc.client, .pictureURL vc img, .url (some url)⟩ e ∈ log)
    (hid : e.key = id) (hpath : url.path = userPicturesPath fromId)
    (hpick : PickedBy user log vc img fromId)

theorem PickedBy.mono {log log' : List MEvent} (hlog : log <:+ log') {vc : MessageVC}
    {img : UIImage} {uid : UID} (h : PickedBy user log vc img uid) :
    PickedBy user log' vc img uid := by
  obtain ⟨e, before, hev, hu⟩ := h
  exact ⟨e, before, hev.trans hlog, hu⟩

theorem SentAs.mono {log log' : List MEvent} (hlog : log <:+ log') {id : String} {fromId : UID}
    (h : SentAs user log id fromId) : SentAs user log' id fromId := by
  cases h with
  | text h hid hu => exact .text (h.trans hlog) hid hu
  | picture h hid hpath hpick => exact .picture (hlog.subset h) hid hpath (hpick.mono hlog)

/-! ## Pictures under way -/

/-- The picture that a request is about, and where it is stored. -/
def askedPicture : Ask Loc Cb Data → Option (MessageVC × UIImage × Path)
  | .putData p _ (.pictureStored vc img _) | .downloadURL p (.pictureURL vc img) => some (vc, img, p)
  | _ => none

/-- The picture that a reply is about. Without a URL there is nothing more to do. -/
def duePicture : Task Loc Client Cb → Option (MessageVC × UIImage × Path)
  | ⟨_, .pictureStored vc img uid, .stored _⟩ => some (vc, img, userPicturesPath uid)
  | ⟨_, .pictureURL vc img, .url (some url)⟩ => some (vc, img, url.path)
  | _ => none

/-- The pictures that are under way on a device. -/
def pendingPictures (s : MState) (c : Client) : List (MessageVC × UIImage × Path) :=
  (s.asks.filter fun a => decide (a.1 = c)).filterMap (fun a => askedPicture a.2) ++
    (s.tasks.filter fun t => decide (t.client = c)).filterMap duePicture

theorem mem_pendingPictures {x : MessageVC × UIImage × Path} : x ∈ pendingPictures s c ↔
    (∃ a, (c, a) ∈ s.asks ∧ askedPicture a = some x) ∨
      ∃ t ∈ s.tasks, t.client = c ∧ duePicture t = some x := by
  simp only [pendingPictures, List.mem_append, List.mem_filterMap, List.mem_filter,
    decide_eq_true_eq, and_assoc]
  refine or_congr_left ⟨?_, ?_⟩
  · rintro ⟨⟨_, a⟩, ha, rfl, hx⟩
    exact ⟨a, ha, hx⟩
  · rintro ⟨a, ha, hx⟩
    exact ⟨(c, a), ha, rfl, hx⟩

theorem duePicture_eq_some {t : Task Loc Client Cb} {x : MessageVC × UIImage × Path} :
    duePicture t = some x ↔
      (∃ c vc img uid ok, t = ⟨c, .pictureStored vc img uid, .stored ok⟩ ∧
        x = (vc, img, userPicturesPath uid)) ∨
      ∃ c vc img url, t = ⟨c, .pictureURL vc img, .url (some url)⟩ ∧ x = (vc, img, url.path) := by
  constructor
  · intro h
    unfold duePicture at h
    split at h
    · cases h
      exact .inl ⟨_, _, _, _, _, rfl, rfl⟩
    · cases h
      exact .inr ⟨_, _, _, _, rfl, rfl⟩
    · cases h
  · rintro (⟨c, vc, img, uid, ok, rfl, rfl⟩ | ⟨c, vc, img, url, rfl, rfl⟩)
    · rfl
    · rfl

/-- What a write calls is no reply about a picture. -/
theorem duePicture_of_write {w : Write Loc Client Cb} {ok : Bool} {t : Task Loc Client Cb}
    (ht : t ∈ s.childEvents w.op ∨ t ∈ s.valueEvents w.op ∨ t ∈ w.ack ok) :
    duePicture t = none := by
  rcases ht with ht | ht | ht
  · obtain ⟨o, -, l, v, k, -, -, -, rfl⟩ := mem_childEvents.1 ht
    obtain ⟨c, p, cb⟩ := o
    cases cb <;> rfl
  · obtain ⟨o, -, -, rfl⟩ := mem_valueEvents.1 ht
    obtain ⟨c, l, cb⟩ := o
    cases cb <;> rfl
  · obtain ⟨cb, -, rfl⟩ := mem_ack.1 ht
    cases cb <;> rfl

/-- An upload goes to the folder of the account that its callback knows. -/
theorem path_of_upload (hf : Facts jpegData s) {p : Path} {data : Data} {vc : MessageVC}
    {img : UIImage} {uid : UID} (ha : (c, .putData p data (.pictureStored vc img uid)) ∈ s.asks) :
    p = userPicturesPath uid := by
  obtain ⟨ev, -, app, -, hi⟩ := issues_in_app (hf.origin.asks _ ha)
  cases hi with
  | upload => rfl

/-- A reply is about the picture of its request. -/
theorem askedPicture_of_answer (hf : Facts jpegData s) {a : Ask Loc Cb Data} {ok : Bool}
    {t : Task Loc Client Cb} (ha : (c, a) ∈ s.asks) (ht : t ∈ s.answer c a ok)
    {x : MessageVC × UIImage × Path} (hx : duePicture t = some x) : askedPicture a = some x := by
  cases a with
  | childAdded p cb =>
    obtain ⟨k, -, rfl⟩ := List.mem_map.1 ht
    rcases duePicture_eq_some.1 hx with ⟨_, _, _, _, _, he, -⟩ | ⟨_, _, _, _, he, -⟩ <;> cases he
  | value | single =>
    rw [List.mem_singleton.1 ht] at hx
    rcases duePicture_eq_some.1 hx with ⟨_, _, _, _, _, he, -⟩ | ⟨_, _, _, _, he, -⟩ <;> cases he
  | putData p data cb =>
    rw [List.mem_singleton.1 ht] at hx
    rcases duePicture_eq_some.1 hx with ⟨_, _, _, _, _, he, rfl⟩ | ⟨_, _, _, _, he, -⟩
    · cases he
      rw [path_of_upload hf ha]
      rfl
    · cases he
  | downloadURL p cb =>
    rw [List.mem_singleton.1 ht] at hx
    rcases duePicture_eq_some.1 hx with ⟨_, _, _, _, _, he, -⟩ | ⟨_, vc, img, url, he, rfl⟩
    · cases he
    · injection he with _ hcb hurl
      injection hurl with hurl
      subst hcb
      split at hurl
      · obtain ⟨o, -, rfl⟩ := Option.map_eq_some_iff.1 hurl
        rfl
      · cases hurl

/-- A picture is under way from its pick on. -/
theorem pendingPictures_step {l : MLabel} (hf : Facts jpegData s)
    (hs : Transition (program jpegData) s l s') {x : MessageVC × UIImage × Path}
    (h : x ∈ pendingPictures s' c) :
    x ∈ pendingPictures s c ∨ ∃ vc img e uid, l = .press (.pickImage vc img) e ∧ vc.client = c ∧
      s.app.currentUser c = some uid ∧ x = (vc, img, userPicturesPath uid) := by
  have asked : ∀ {a}, (c, a) ∈ s.asks → askedPicture a = some x → x ∈ pendingPictures s c :=
    fun ha hx => mem_pendingPictures.2 (.inl ⟨_, ha, hx⟩)
  have due : ∀ {t}, t ∈ s.tasks → t.client = c → duePicture t = some x → x ∈ pendingPictures s c :=
    fun ht hc hx => mem_pendingPictures.2 (.inr ⟨_, ht, hc, hx⟩)
  rcases mem_pendingPictures.1 h with ⟨a, ha, hx⟩ | ⟨t, ht, hc, hx⟩
  · cases hs with
    | press hkey hact =>
      rcases List.mem_append.1 ha with ha | ha
      · exact .inl (asked ha hx)
      · obtain ⟨rfl, hcmd⟩ := mem_newAsks.1 ha
        cases issues_of_act rfl hact hcmd with
        | upload hdata hu =>
          cases hx
          exact .inr ⟨_, _, _, _, rfl, rfl, hu, rfl⟩
        | observe => cases hx
    | @run i e t app cmds hkey ht hrun =>
      rcases List.mem_append.1 ha with ha | ha
      · exact .inl (asked ha hx)
      · obtain ⟨rfl, hcmd⟩ := mem_newAsks.1 ha
        have ht := List.mem_of_getElem? ht
        have hcmds : (handle t.client e t.cb t.input s.app).2 = cmds := congrArg Prod.snd hrun
        rw [← hcmds] at hcmd
        obtain ⟨c', cb, input⟩ := t
        have hi : Issues jpegData _ _ _ _ := issues_of_handle rfl hcmd
        cases hi with
        | fetchURL =>
          cases hx
          exact .inl (due ht rfl rfl)
        | read => cases hx
    | serve => exact .inl (asked (List.mem_of_mem_eraseIdx ha) hx)
    | die => exact .inl (asked (List.mem_filter.1 ha).1 hx)
    | apply | reject => exact .inl (asked ha hx)
  · cases hs with
    | press => exact .inl (due ht hc hx)
    | run => exact .inl (due (List.mem_of_mem_eraseIdx ht) hc hx)
    | die => exact .inl (due (List.mem_filter.1 ht).1 hc hx)
    | apply =>
      rcases List.mem_append.1 ht with ht | ht
      · exact .inl (due ht hc hx)
      · rw [List.mem_append, List.mem_append, or_assoc] at ht
        rw [duePicture_of_write ht] at hx
        cases hx
    | reject =>
      rcases List.mem_append.1 ht with ht | ht
      · exact .inl (due ht hc hx)
      · rw [duePicture_of_write (s := s) (.inr (.inr ht))] at hx
        cases hx
    | serve ha =>
      rcases List.mem_append.1 ht with ht | ht
      · exact .inl (due ht hc hx)
      · have ha := List.mem_of_getElem? ha
        obtain rfl : _ = c := (mem_answer ht).1.symm.trans hc
        exact .inl (asked ha (askedPicture_of_answer hf ha ht hx))

/-! ## Nobody leaves a picture behind -/

/-- An account comes to a device or leaves it only while none of its pictures is under way. -/
def KeepsPickers (s : MState) : MLabel → Prop
  | .press (.signOut c) _ => pendingPictures s c = []
  | .press (.signIn c uid) _ => s.app.currentUser c = some uid ∨ pendingPictures s c = []
  | _ => True

instance (s : MState) : DecidablePred (KeepsPickers s)
  | .press (.signOut c) _ => inferInstanceAs (Decidable (pendingPictures s c = []))
  | .press (.signIn c _) _ => inferInstanceAs (Decidable (_ ∨ pendingPictures s c = []))
  | .press (.viewDidAppear _) _ | .press (.sendBtnPressed ..) _ | .press (.pickImage ..) _
  | .press (.timerFired _) _ | .press (.reloadCollection _) _ | .run _ _ | .commit _ _ | .serve _ _
  | .die _ => isTrue trivial

/-- Whoever picked a picture that is under way is still signed in. -/
def PickersStay (user : Client → Option UID) (s : MState) : Prop :=
  ∀ c vc img p, (vc, img, p) ∈ pendingPictures s c → vc.client = c ∧ ∃ uid,
    s.app.currentUser c = some uid ∧ p = userPicturesPath uid ∧ PickedBy user s.log vc img uid

/-- Whoever has a picture under way keeps the account. -/
theorem currentUser_of_keepsPickers {l : MLabel} (hl : KeepsPickers s l)
    (hs : Transition (program jpegData) s l s') (hc : pendingPictures s c ≠ []) :
    s'.app.currentUser c = s.app.currentUser c := by
  obtain ⟨ev, hlog, happ⟩ := currentUser_step hs
  rw [happ]
  cases hs with
  | @press a e c' app cmds hkey hact =>
    obtain rfl := (List.cons.inj hlog).1
    cases a with
    | signOut c' =>
      refine if_neg fun he => hc ?_
      rw [he]
      exact hl
    | signIn c' uid =>
      change (if c = c' then some uid else s.app.currentUser c) = s.app.currentUser c
      split
      · next he =>
        rcases hl with hl | hl
        · rw [he, hl]
        · exact absurd (he ▸ hl) hc
      · rfl
    | viewDidAppear | sendBtnPressed | pickImage | timerFired | reloadCollection => rfl
  | run | apply | reject | serve | die =>
    obtain rfl := (List.cons.inj hlog).1
    rfl

theorem PickersStay.step {l : MLabel} (h : PickersStay user s) (hf : Facts jpegData s)
    (haccounts : s.app.currentUser = accounts user s.log) (hl : KeepsPickers s l)
    (hs : Transition (program jpegData) s l s') : PickersStay user s' := by
  intro c vc img p hx
  obtain ⟨ev, hlog⟩ := hs.log_cons
  have hsuffix : s.log <:+ s'.log := hlog ▸ List.suffix_cons _ _
  rcases pendingPictures_step hf hs hx with hx | ⟨vc, img, e, uid, rfl, rfl, hu, he⟩
  · obtain ⟨hc, uid, hu, hp, hpick⟩ := h c vc img p hx
    refine ⟨hc, uid, ?_, hp, hpick.mono hsuffix⟩
    rw [currentUser_of_keepsPickers hl hs (List.ne_nil_of_mem hx)]
    exact hu
  · -- the picture is picked in this step
    cases he
    obtain ⟨ev, hlog', happ⟩ := currentUser_step hs
    cases hs with
    | press hkey hact =>
      obtain rfl := (List.cons.inj hlog').1
      exact ⟨rfl, uid, happ ▸ hu, rfl, e, s.log, List.suffix_refl _, haccounts ▸ hu⟩

theorem pickersStay_of_reaches (hs : Initial s₀) (htree : s₀.tree = ∅)
    (h : Reaches (step (program jpegData)) KeepsPickers s₀ s) :
    PickersStay s₀.app.currentUser s :=
  h.invariant_of_reached (I := PickersStay s₀.app.currentUser)
    (fun c vc img p hx => by simp [pendingPictures, hs.asks, hs.tasks] at hx)
    fun ht ih hl hstep => ih.step (.of_reaches hs htree ht) (accounts_of_reaches hs ht) hl
      (transition_of_step hstep)

/-! ## Every record has its author -/

/-- A write of a record names who sent the message. -/
def NamesAuthor (user : Client → Option UID) (log : List MEvent) (op : Op Loc) : Prop :=
  ∀ id d, op = .update (.messages id) d →
    ∃ fromId, d.fromId = some fromId ∧ SentAs user log id fromId

def WritesAuthored (user : Client → Option UID) (s : MState) : Prop :=
  ∀ w ∈ s.writes, NamesAuthor user s.log w.op

theorem fromId_value (m : Sent) : m.value.fromId = some m.fromId := by
  obtain ⟨id, fromId, toId, timeStamp, content⟩ := m
  cases content <;> rfl

theorem WritesAuthored.step {l : MLabel} (h : WritesAuthored user s) (hp : PickersStay user s)
    (haccounts : s.app.currentUser = accounts user s.log)
    (hs : Transition (program jpegData) s l s') : WritesAuthored user s' := by
  rintro ⟨c, op, completion⟩ hw id d hop
  rcases mem_writes_step hw hs with hw | ⟨a, e, app, cmds, hkey, hact, hcmd, rfl⟩ |
    ⟨i, t, e, app, cmds, ht, hc, hrun, hcmd, rfl⟩
  · obtain ⟨ev, hlog⟩ := hs.log_cons
    obtain ⟨fromId, hd, hsent⟩ := h _ hw id d hop
    exact ⟨fromId, hd, hsent.mono (hlog ▸ List.suffix_cons _ _)⟩
  · cases hop
    cases issues_of_act rfl hact hcmd with
    | send hm =>
      refine ⟨_, fromId_value _, ?_⟩
      cases a with
      | sendBtnPressed vc text =>
        obtain ⟨fromId, hu, rfl⟩ := Option.map_eq_some_iff.1 hm
        exact .text (List.suffix_refl _) rfl (haccounts ▸ hu)
      | viewDidAppear | pickImage | timerFired | reloadCollection | signOut | signIn => cases hm
  · cases hop
    obtain ⟨c, cb, input⟩ := t
    have hcmds : (handle c e cb input s.app).2 = cmds := congrArg Prod.snd hrun
    rw [← hcmds] at hcmd
    have hi : Issues jpegData _ _ _ _ := issues_of_handle rfl hcmd
    cases hi with
    | send hm =>
      refine ⟨_, fromId_value _, ?_⟩
      unfold sentBy at hm
      split at hm
      · next he => cases he
      · next c vc img url e' he =>
        -- whoever picked the picture is still signed in
        cases he
        obtain ⟨fromId, hu, rfl⟩ := Option.map_eq_some_iff.1 hm
        obtain ⟨rfl, uid, huid, hpath, hpick⟩ := hp c vc img url.path
          (mem_pendingPictures.2 (.inr ⟨_, ht, rfl, rfl⟩))
        obtain rfl : fromId = uid := Option.some.inj (hu.symm.trans huid)
        exact .picture List.mem_cons_self rfl hpath (hpick.mono (List.suffix_cons _ _))
      · cases hm

theorem writesAuthored_of_reaches (hs : Initial s₀) (htree : s₀.tree = ∅)
    (h : Reaches (step (program jpegData)) KeepsPickers s₀ s) :
    WritesAuthored s₀.app.currentUser s :=
  h.invariant_of_reached (I := WritesAuthored s₀.app.currentUser) (by simp [WritesAuthored, hs.writes])
    fun ht ih _ hstep => ih.step (pickersStay_of_reaches hs htree ht) (accounts_of_reaches hs ht)
      (transition_of_step hstep)

/-- Every record names the account that sent it, and no pending reply about a picture traps. -/
structure Authored (user : Client → Option UID) (s : MState) : Prop where
  records : ∀ id d, s.tree.lookup (.messages id) = some d →
    ∃ fromId, d.fromId = some fromId ∧ SentAs user s.log id fromId
  replies : ∀ t ∈ s.tasks, (duePicture t).isSome → ∀ e,
    (handle t.client e t.cb t.input s.app).1.trapped = s.app.trapped

theorem authors_of_reaches (hs : Initial s₀) (htree : s₀.tree = ∅)
    (h : Reaches (step (program jpegData)) KeepsPickers s₀ s) :
    Authored s₀.app.currentUser s where
  records id d hd := by
    have hf := Facts.of_reaches hs htree (h.mono fun _ _ _ => trivial)
    obtain ⟨c, hr⟩ := hf.values (.messages id) d rfl hd
    obtain ⟨post, before, hlog⟩ := List.append_of_mem hr
    have hsuffix : .resolved c (.update (.messages id) d) true :: before <:+ s.log := ⟨post, hlog.symm⟩
    obtain ⟨fromId, hfrom, hsent⟩ := of_resolved_suffix
      (Q := fun log _ => NamesAuthor s₀.app.currentUser log) hs
      (fun t ht => writesAuthored_of_reaches hs htree ht) h hsuffix id d rfl
    exact ⟨fromId, hfrom, hsent.mono ((List.suffix_cons _ _).trans hsuffix)⟩
  replies t ht hdue e := by
    obtain ⟨x, hx⟩ := Option.isSome_iff_exists.1 hdue
    have hstay := pickersStay_of_reaches hs htree h t.client x.1 x.2.1 x.2.2
      (mem_pendingPictures.2 (.inr ⟨t, ht, rfl, hx⟩))
    rcases duePicture_eq_some.1 hx with ⟨c, vc, img, uid, ok, rfl, rfl⟩ | ⟨c, vc, img, url, rfl, rfl⟩
    · unfold handle
      split <;> rfl
    · obtain ⟨-, uid, hu, -⟩ := hstay
      unfold handle
      split
      · rfl
      · simp [handleSend, hu]

/-- Alice signs out and Carol signs in once the picture is sent. -/
def switchAfter : List MLabel :=
  sendCat ++ [.press (.signOut 0) ⟨"o1", 3⟩, .press (.signIn 0 "carol") ⟨"i1", 4⟩]

def switchedAfter : MState :=
  (exec (step (program jpeg)) KeepsPickers start switchAfter).get (by decide +kernel)

theorem authors_switchedAfter : Authored start.app.currentUser switchedAfter :=
  authors_of_reaches start_start.initial start_start.tree (.of_exec (Option.some_get _).symm)

/-! ## A picture left behind -/

/-- Who signs out while the URL of a picture is due leaves a reply that traps. -/
theorem not_authored_of_signOut {vc : MessageVC} {img : UIImage} {url : DownloadURL} {e : Env}
    (ht : ⟨c, .pictureURL vc img, .url (some url)⟩ ∈ s.tasks)
    (hstep : step (program jpegData) s (.press (.signOut c) e) = some s') :
    ¬ Authored user s' := by
  intro h
  cases transition_of_step hstep with
  | @press _ _ c' app cmds hkey hact =>
    have htrap := congrFun (h.replies _ ht rfl e) c
    rw [program_act] at hact
    unfold act at hact
    split at hact
    · cases hact
    · next htrapped =>
      cases hact
      have hfalse : s.app.trapped c = false := Bool.eq_false_iff.2 htrapped
      simp [handle, handleSend, App.trap, hfalse] at htrap

/-- Alice picks a picture, and its URL is due. -/
def pickCat : List MLabel := [
  .press (.pickImage aliceVC cat) ⟨"p1", 0⟩, .serve 0 true, .run 0 ⟨"k1", 1⟩, .serve 0 true]

/-- Alice has signed out by then. -/
def signedOut : MState :=
  (exec (step (program jpeg)) AnyStep start
    (pickCat ++ [.press (.signOut 0) ⟨"o1", 2⟩])).get (by decide +kernel)

/-- Carol has signed in, and the picture is sent. -/
def catOfCarol : MState :=
  (exec (step (program jpeg)) AnyStep start
    (pickCat ++ [.press (.signOut 0) ⟨"o1", 2⟩, .press (.signIn 0 "carol") ⟨"i1", 3⟩,
      .run 0 ⟨"m1", 4⟩, .commit 0 true])).get (by decide +kernel)

theorem catOfCarol_reached : Reaches (step (program jpeg)) AnyStep start catOfCarol :=
  .of_exec (Option.some_get _).symm

/-- The change of account gives the picture to Carol, or its reply traps. -/
theorem not_authors :
    (¬ ∀ s₀ s : MState, Start s₀ → Reaches (step (program jpeg)) AnyStep s₀ s →
      ∀ id d, s.tree.lookup (.messages id) = some d →
        ∃ fromId, d.fromId = some fromId ∧ SentAs s₀.app.currentUser s.log id fromId) ∧
    ¬ ∀ s₀ s : MState, Start s₀ → Reaches (step (program jpeg)) AnyStep s₀ s →
      ∀ t ∈ s.tasks, (duePicture t).isSome → ∀ e,
        (handle t.client e t.cb t.input s.app).1.trapped = s.app.trapped := by
  constructor
  · intro h
    obtain ⟨fromId, hd, hsent⟩ := h start catOfCarol start_start catOfCarol_reached "m1" _ rfl
    cases hd
    have hkeys := KeysFresh.of_reaches start_start.initial catOfCarol_reached
    have hev : Event.ran ⟨0, .pictureURL aliceVC cat, .url (some ⟨userPicturesPath "alice", 0⟩)⟩
        ⟨"m1", 4⟩ ∈ catOfCarol.log := List.mem_of_getElem? (i := 1) rfl
    cases hsent with
    | text h hid =>
      cases hkeys.event_eq (h.subset List.mem_cons_self) hev (congrArg some hid) rfl
    | picture h hid hpath =>
      have he := hkeys.event_eq h hev (congrArg some hid) rfl
      injection he with ht
      injection ht with _ _ hurl
      cases hurl
      exact absurd hpath (by decide)
  · intro h
    have htrap := congrFun (h start signedOut start_start (.of_exec (Option.some_get _).symm)
      ⟨0, .pictureURL aliceVC cat, .url (some ⟨userPicturesPath "alice", 0⟩)⟩ List.mem_cons_self rfl
      ⟨"m1", 3⟩) 0
    exact absurd htrap (by decide +kernel)

end FLChat.Messages
