import FLChat.Messages.Screen
import FLChat.Realtime.Counting

/-!
# Every message is delivered once

In a run in which nothing fails, each message that was sent reaches each observer of its
conversation (`replies_perm_conversation`): by then both index entries are there, the observer has
been told about the one it watches, the read found the record, and the counting of `Counting` shows
that it did so once. What a view controller shows in the end is therefore the whole conversation,
however often it appeared.
-/

namespace FLChat.Messages

open Realtime

variable {jpegData : UIImage → Option Data} {user : Client → Option UID} {s₀ s s' : MState}

/-- The steps of a run in which nothing fails: the users who press are signed in and stay so, no
write is rejected and no process ends. -/
def Delivers (s : MState) : MLabel → Prop
  | .press a e => SameAccounts (.press a e) ∧ (s.app.currentUser a.client).isSome
  | .run _ _ | .serve _ _ => True
  | .commit _ ok => ok = true
  | .die _ => False

instance (s : MState) : DecidablePred (Delivers s)
  | .press _ _ => inferInstanceAs (Decidable (_ ∧ _))
  | .run _ _ | .serve _ _ => isTrue trivial
  | .commit _ ok => inferInstanceAs (Decidable (ok = true))
  | .die _ => isFalse id

/-- Nothing has been sent yet. -/
structure Start (s₀ : MState) : Prop where
  initial : Initial s₀
  tree : s₀.tree = ∅
  app : s₀.app.Fresh

theorem Delivers.sameAccounts : ∀ s l, Delivers s l → SameAccounts l := by
  intro s l h
  cases l with
  | press => exact h.1
  | run | commit | serve | die => trivial

theorem Delivers.noDeath : NoDeath Delivers := fun _ _ h => h

/-! ## Nobody is trapped -/

/-- Only a client that is signed in gets the URL of a picture. -/
theorem signedIn_of_pictureURL (h : History jpegData user s) {c : Client} {vc : MessageVC}
    {img : UIImage} {u : Option DownloadURL}
    (ht : TaskOrigin (program jpegData) (SignedIn user) s.log ⟨c, .pictureURL vc img, .url u⟩) :
    (user c).isSome := by
  obtain ⟨p, hi, -⟩ := ht
  obtain ⟨ev, hev, hi⟩ := issues_of_issued hi
  cases hi with
  | fetchURL =>
    obtain ⟨p, d, hi, -⟩ := h.origin.log _ hev
    obtain ⟨ev, -, hi⟩ := issues_of_issued hi
    cases hi with
    | upload hdata hu => exact Option.isSome_iff_exists.2 ⟨_, hu⟩

theorem screen_of_reaches (hs : Start s₀) (h : Reaches (step (program jpegData)) Delivers s₀ s) :
    Screen s.log s.app := by
  refine h.invariant_of_reached (I := fun s => Screen s.log s.app)
    (by rw [hs.initial.log]; exact .fresh hs.app) fun {t l u} ht ih hl hstep => ?_
  have huser := currentUser_of_reaches Delivers.sameAccounts ht
  have hist := History.of_reaches hs.initial hs.tree Delivers.sameAccounts ht
  cases transition_of_step hstep with
  | press hkey hact => exact ih.act hact hl.2
  | @run i e task app cmds hkey htask hrun =>
    have htask := List.mem_of_getElem? htask
    have := ih.handle task.client e task.cb task.input
      (fun vc img url hcb hin => ?_) fun call l v hcb hin => ?_
    · rw [show handle task.client e task.cb task.input t.app = (app, cmds) from hrun] at this
      exact this
    · rw [huser]
      obtain ⟨c, cb, input⟩ := task
      cases hcb
      cases hin
      exact signedIn_of_pictureURL hist (hist.origin.tasks _ htask)
    · obtain ⟨c, cb, input⟩ := task
      cases hcb
      cases hin
      obtain ⟨-, -, m, -, -, he⟩ := sent_of_messageRead hs.initial hs.tree
        Delivers.sameAccounts ht (.inl htask)
      exact ⟨m, he⟩
  | apply | reject | serve => exact ih.skip fun _ => rfl
  | die => exact hl.elim

/-- The program state of every step of such a run. -/
def Running (user : Client → Option UID) : Guard Loc Client Cb Data App Action :=
  fun _ app => app.currentUser = user ∧ ∀ c, app.trapped c = false

theorem running_of_reaches (hs : Start s₀)
    (h : Reaches (step (program jpegData)) Delivers s₀ s) (l : MLabel) :
    (Running s₀.app.currentUser).Holds s l := by
  have hr : s.app.currentUser = s₀.app.currentUser ∧ ∀ c, s.app.trapped c = false :=
    ⟨currentUser_of_reaches Delivers.sameAccounts h, (screen_of_reaches hs h).trapped⟩
  cases l with
  | press => exact hr
  | run => exact fun _ _ => hr
  | commit | serve | die => trivial

theorem progressed_of_reaches (hs : Start s₀)
    (h : Reaches (step (program jpegData)) Delivers s₀ s) :
    Progressed (program jpegData) (Running s₀.app.currentUser) s :=
  .of_reaches hs.initial Delivers.noDeath (fun ht _ => running_of_reaches hs ht _) h

/-! ## Every message arrives -/

section Arrives

variable (hs : Start s₀) (h : Reaches (step (program jpegData)) Delivers s₀ s)
include hs h

theorem history_of_reaches : History jpegData s₀.app.currentUser s :=
  .of_reaches hs.initial hs.tree Delivers.sameAccounts h

theorem accepted {c : Client} {op : Op Loc} {b : Bool} (hr : .resolved c op b ∈ s.log) :
    b = true := by
  cases b with
  | true => rfl
  | false =>
    exact (rejected_of_reaches (Q := fun _ => False) hs.initial
      (fun _ _ _ hl _ => Bool.false_ne_true hl) h hr).elim

variable (hq : s.Quiescent)
include hq

/-- The observer that an appearance attaches. -/
theorem observer_of_viewDidAppear {vc : MessageVC} {e : Env} {uid : UID}
    (hev : .pressed (.viewDidAppear vc) e ∈ s.log)
    (hu : s₀.app.currentUser vc.client = some uid) :
    ⟨vc.client, userMessagesPath uid vc.uid, .messageAdded ⟨vc, e.key⟩⟩ ∈ s.childObs := by
  obtain ⟨app, c, app', cmds, ⟨huser, htrapped⟩, hact, hp⟩ :=
    (progressed_of_reaches hs h).pressed _ _ hev
  simp only [program_act, act, htrapped, Bool.false_eq_true, ↓reduceIte, observUserMessages,
    huser, hu, Option.some.injEq, Prod.mk.injEq] at hact
  obtain ⟨rfl, rfl, rfl⟩ := hact
  exact (hp _ List.mem_cons_self).childAdded_of_quiescent hq

/-- The record of a message has been completed. -/
theorem messageWritten_of_sent {m : Sent} (hm : m ∈ sentMessages s₀.app.currentUser s.log) :
    ∃ c e, .ran ⟨c, .messageWritten m.fromId m.toId m.id, .acked true⟩ e ∈ s.log := by
  -- the write was issued in the step that sent the message
  have written : ∃ c, Progress s c (.write (.update (.messages m.id) m.value)
      (some (.messageWritten m.fromId m.toId m.id))) := by
    obtain ⟨ev, hev, hm⟩ := mem_sentMessages.1 hm
    unfold sentBy at hm
    split at hm
    · next vc text e =>
      obtain ⟨fromId, hu, rfl⟩ := Option.map_eq_some_iff.1 hm
      obtain ⟨app, c, app', cmds, ⟨huser, htrapped⟩, hact, hp⟩ :=
        (progressed_of_reaches hs h).pressed _ _ hev
      simp only [program_act, act, htrapped, Bool.false_eq_true, ↓reduceIte, handleSend, huser,
        hu] at hact
      split at hact
      · cases hact
      · cases hact
        exact ⟨_, hp _ List.mem_cons_self⟩
    · next c vc img url e =>
      obtain ⟨fromId, hu, rfl⟩ := Option.map_eq_some_iff.1 hm
      obtain ⟨app, ⟨huser, htrapped⟩, hp⟩ := (progressed_of_reaches hs h).ran _ _ hev
      simp only [program_handle, handle, htrapped, Bool.false_eq_true, ↓reduceIte, handleSend,
        huser, hu] at hp
      exact ⟨_, hp _ List.mem_cons_self⟩
    · cases hm
  obtain ⟨c, hp⟩ := written
  obtain ⟨ok, hr, hrun⟩ := hp.write_of_quiescent hq
  obtain rfl := accepted hs h hr
  obtain ⟨e, hrun⟩ := hrun _ rfl
  exact ⟨c, e, hrun⟩

/-- Both sides have the index entry of a message. -/
theorem index_of_sent {m : Sent} (hm : m ∈ sentMessages s₀.app.currentUser s.log) {u v : UID}
    (hbetween : m.Between u v) : Loc.usersMessages u v m.id ∈ s.tree := by
  obtain ⟨c, e, hev⟩ := messageWritten_of_sent hs h hq hm
  obtain ⟨app, ⟨huser, htrapped⟩, hp⟩ := (progressed_of_reaches hs h).ran _ _ hev
  simp only [program_handle, handle, htrapped, Bool.false_eq_true, ↓reduceIte, messageWritten]
    at hp
  have entry : ∀ l : Loc, l = .usersMessages m.fromId m.toId m.id ∨
      l = .usersMessages m.toId m.fromId m.id → l ∈ s.tree := by
    rintro l (rfl | rfl)
    · obtain ⟨ok, hr, -⟩ := (hp _ List.mem_cons_self).write_of_quiescent hq
      obtain rfl := accepted hs h hr
      exact (history_of_reaches hs h).mem_tree hr
    · obtain ⟨ok, hr, -⟩ :=
        (hp _ (List.mem_cons_of_mem _ List.mem_cons_self)).write_of_quiescent hq
      obtain rfl := accepted hs h hr
      exact (history_of_reaches hs h).mem_tree hr
  rcases hbetween with ⟨rfl, rfl⟩ | ⟨rfl, rfl⟩
  · exact entry _ (.inl rfl)
  · exact entry _ (.inr rfl)

/-- Every message of the conversation has been delivered to the observer. -/
theorem mem_replies_of_sent {m : Sent} (hm : m ∈ sentMessages s₀.app.currentUser s.log)
    {vc : MessageVC} {e : Env} {uid : UID} (hev : .pressed (.viewDidAppear vc) e ∈ s.log)
    (hu : s₀.app.currentUser vc.client = some uid) (hbetween : m.Between uid vc.uid) :
    (m.id, m.message) ∈ replies ⟨vc, e.key⟩ s.log := by
  have hobs := observer_of_viewDidAppear hs h hq hev hu
  have hchild : m.id ∈ s.tree.children (userMessagesPath uid vc.uid) :=
    Tree.mem_children.2 ⟨_, index_of_sent hs h hq hm hbetween, by
      simp [Tree.childKey, userMessagesPath, path]⟩
  obtain ⟨e₁, hadded⟩ :=
    (Covered.of_reaches hs.initial h _ hobs _ hchild).ran_of_quiescent hq
  obtain ⟨app, ⟨huser, htrapped⟩, hp⟩ := (progressed_of_reaches hs h).ran _ _ hadded
  simp only [program_handle, handle, htrapped, Bool.false_eq_true, ↓reduceIte] at hp
  obtain ⟨v, e₂, hread⟩ := (hp _ List.mem_cons_self).single_of_quiescent hq
  obtain ⟨-, -, m', hm', -, he⟩ := sent_of_messageRead hs.initial hs.tree Delivers.sameAccounts h
    (.inr ⟨e₂, hread⟩)
  have hid : m.id = m'.id := by
    injection he with hl
    injection hl
  obtain rfl := (history_of_reaches hs h).sent_unique hm hm' hid
  cases he
  exact mem_replies.2 ⟨_, hread, by simp [replyOf, Sent.decode_value]⟩

end Arrives

/-! ## And arrives once -/

section Once

/-- What is under way to the delivery of message `id` to an observer. -/
def readWeight (call : Call) (id : String) : Weight Loc Client Cb Data Action where
  ask
    | (_, .single (.messages id') (.messageRead call')) => if call' = call ∧ id' = id then 1 else 0
    | _ => 0
  task
    | ⟨_, .messageAdded call', .childAdded id'⟩ => if call' = call ∧ id' = id then 1 else 0
    | ⟨_, .messageRead call', .value (.messages id') _⟩ =>
      if call' = call ∧ id' = id then 1 else 0
    | _ => 0
  event
    | .ran ⟨_, .messageRead call', .value (.messages id') _⟩ _ =>
      if call' = call ∧ id' = id then 1 else 0
    | _ => 0

/-- The observer of a call, asked for or attached. -/
def observerWeight (call : Call) : Weight Loc Client Cb Data Action where
  ask
    | (_, .childAdded _ (.messageAdded call')) => if call' = call then 1 else 0
    | _ => 0
  obs o := if o.cb = .messageAdded call then 1 else 0

/-- The appearance that makes a call. -/
def makesCall (user : Client → Option UID) (call : Call) : MEvent → ℕ
  | .pressed (.viewDidAppear vc) e =>
    if (user vc.client).isSome ∧ (⟨vc, e.key⟩ : Call) = call then 1 else 0
  | _ => 0

theorem readWeight_balanced (call : Call) (id : String) (h : History jpegData user s)
    (huser : s.app.currentUser = user) (hr : ∀ c, s.app.trapped c = false) :
    Balanced (program jpegData) (readWeight call id) (fun _ => 0) s where
  press a e c app cmds hact := by
    refine (Nat.add_zero _).trans (Weight.cmds_eq_zero _ (fun _ _ _ => rfl) fun a' ha => ?_)
    have hi := issues_of_act huser hact ha
    cases hi <;> rfl
  run t ht e := by
    obtain ⟨c, cb, input⟩ := t
    simp only [program_handle, handle, hr, Bool.false_eq_true, ↓reduceIte]
    cases cb with
    | messageWritten fromId toId messageId =>
      cases input with
      | acked ok => cases ok <;> rfl
      | childAdded | value | stored | url => rfl
    | messageAdded call' =>
      cases input with
      | childAdded messageId => simp [readWeight]
      | acked | value | stored | url => rfl
    | messageRead call' =>
      cases input with
      | value l v =>
        cases l with
        | messages messageId => simp [readWeight]
        | usersMessages => rfl
      | acked | childAdded | stored | url => rfl
    | pictureStored vc image uid => cases input <;> rfl
    | pictureURL vc image =>
      cases input with
      | url u =>
        cases u with
        | none => rfl
        | some url =>
          refine (Nat.add_zero _).trans (Weight.cmds_eq_zero _ (fun _ _ _ => rfl) fun a ha => ?_)
          have hi : Issues jpegData user _ c (.ask a) := handleSend_picture huser ha
          cases hi
      | acked | childAdded | value | stored => rfl
  write w hw ok := by
    have : ∀ t ∈ w.ack ok, (readWeight call id).task t = 0 := fun t ht => by
      obtain ⟨cb, -, rfl⟩ := mem_ack.1 ht
      cases cb <;> rfl
    rw [weigh_eq_zero this]
    rfl
  raise w hw t ht := by
    obtain ⟨o, ho, -⟩ := mem_valueEvents.1 ht
    exact absurd (h.origin.valueObs o ho) History.not_issued_value
  remove w hw p hp := by
    have hi := h.origin.writes w hw
    rw [hp] at hi
    exact absurd hi History.not_issued_remove
  observe c p cb ha ok := rfl
  serve c a ha hne ok := by
    obtain ⟨ev, -, hi⟩ := issues_of_issued (h.origin.asks _ ha)
    cases hi with
    | observe => exact absurd rfl (hne _ _)
    | read => simp [State.answer, readWeight]
    | upload => rfl
    | fetchURL => rfl

theorem observerWeight_balanced (call : Call) (huser : s.app.currentUser = user)
    (hr : ∀ c, s.app.trapped c = false) :
    Balanced (program jpegData) (observerWeight call) (makesCall user call) s where
  press a e c app cmds hact := by
    cases a with
    | viewDidAppear vc =>
      simp only [program_act, act, hr, Bool.false_eq_true, ↓reduceIte, observUserMessages, huser,
        Option.some.injEq, Prod.mk.injEq] at hact
      obtain ⟨rfl, -, rfl⟩ := hact
      cases hu : user vc.client <;> simp [observerWeight, makesCall, hu]
    | sendBtnPressed | pickImage | timerFired | reloadCollection | signOut | signIn =>
      refine (Nat.add_zero _).trans (Weight.cmds_eq_zero _ (fun _ _ _ => rfl) fun a' ha => ?_)
      have hi : Issues jpegData user (.pressed _ e) c (.ask a') := issues_of_act huser hact ha
      cases hi <;> rfl
  run t ht e := by
    obtain ⟨c, cb, input⟩ := t
    refine (Nat.add_zero _).trans (Weight.cmds_eq_zero _ (fun _ _ _ => rfl) fun a ha => ?_)
    have hi : Issues jpegData user _ c (.ask a) := issues_of_handle huser ha
    cases hi <;> rfl
  write w hw ok := by
    rw [weigh_eq_zero (f := (observerWeight call).task) fun _ _ => rfl]
    rfl
  raise w hw t ht := rfl
  remove w hw p hp o ho := .inl fun _ => rfl
  observe c p cb ha ok := by
    cases cb <;> simp [observerWeight, makesCall]
  serve c a ha hne ok := by
    rw [weigh_eq_zero (f := (observerWeight call).task) fun _ _ => rfl]
    cases a with
    | childAdded p cb => exact absurd rfl (hne _ _)
    | value | single | putData | downloadURL => rfl

variable (hs : Start s₀) (h : Reaches (step (program jpegData)) Delivers s₀ s)
include hs h

/-- A call has at most one observer. -/
theorem observers_le_one (call : Call) :
    weigh (observerWeight call).obs s.childObs ≤ 1 := by
  have huser := currentUser_of_reaches Delivers.sameAccounts h
  have htotal := total_of_reaches hs.initial Delivers.noDeath (fun t ht =>
    observerWeight_balanced call (currentUser_of_reaches Delivers.sameAccounts ht)
      (screen_of_reaches hs ht).trapped) h
  have hann : (observerWeight call).announced s = 0 :=
    weigh_eq_zero fun o _ => weigh_eq_zero fun k _ => rfl
  have hmade : weigh (makesCall s₀.app.currentUser call) s.log ≤ 1 := by
    refine weigh_le_one (k := call.id) (history_of_reaches hs h).keys.nodup (fun ev _ => ?_)
      fun ev _ hne => ?_
    · unfold makesCall
      split
      · split <;> omega
      · omega
    · unfold makesCall at hne
      split at hne
      · split at hne
        · next hc => exact congrArg some (congrArg Call.id hc.2)
        · exact absurd rfl hne
      · exact absurd rfl hne
  unfold Weight.total at htotal
  omega

/-- An observer gets no message twice. -/
theorem replies_nodup (call : Call) : ((replies call s.log).map Prod.fst).Nodup := by
  refine List.nodup_iff_count_le_one.2 fun id => ?_
  have htotal := total_of_reaches hs.initial Delivers.noDeath (fun t ht =>
    readWeight_balanced call id (history_of_reaches hs ht)
      (currentUser_of_reaches Delivers.sameAccounts ht) (screen_of_reaches hs ht).trapped) h
  rw [weigh_eq_zero fun _ _ => rfl, Nat.zero_add] at htotal
  -- each of the observers announces the message at most once
  have hann : (readWeight call id).announced s ≤ 1 := by
    refine le_trans (weigh_le_weigh fun o _ => ?_) (observers_le_one hs h call)
    refine (weigh_le_of_nodup (a := id) (Tree.children_nodup _ _) fun k hk => ?_).trans ?_
    · unfold Weight.child readWeight
      cases o.cb <;> simp [hk]
    · obtain ⟨c, p, cb⟩ := o
      cases cb <;> simp [Weight.child, readWeight, observerWeight]
  have hcount : ((replies call s.log).map Prod.fst).count id ≤
      weigh (readWeight call id).event s.log := by
    rw [replies, List.map_filterMap, ← weigh_perm (List.reverse_perm s.log)]
    refine count_filterMap_le_weigh (fun ev hev => ?_) _
    obtain ⟨x, hx, rfl⟩ := Option.map_eq_some_iff.1 hev
    unfold replyOf at hx
    split at hx
    · split at hx
      · next hc =>
        obtain ⟨m, -, rfl⟩ := Option.map_eq_some_iff.1 hx
        simp [readWeight, hc]
      · cases hx
    · cases hx
  unfold Weight.total at htotal
  omega

end Once

/-! ## The whole conversation -/

theorem viewDidAppear_of_messages (hs : Start s₀)
    (h : Reaches (step (program jpegData)) Delivers s₀ s) {call : Call}
    (hne : s.app.messages call ≠ []) :
    ∃ e, call.id = e.key ∧ .pressed (.viewDidAppear call.vc) e ∈ s.log := by
  rw [(screen_of_reaches hs h).messages, ne_eq, List.map_eq_nil_iff] at hne
  obtain ⟨x, hx⟩ := List.exists_mem_of_ne_nil _ hne
  obtain ⟨ev, hev, hx⟩ := mem_replies.1 hx
  unfold replyOf at hx
  split at hx
  · split at hx
    · next hc =>
      subst hc
      exact (history_of_reaches hs h).viewDidAppear_of_messageRead hev
    · cases hx
  · cases hx

section Conversation

variable (hs : Start s₀) (h : Reaches (step (program jpegData)) Delivers s₀ s)
  (hq : s.Quiescent)
include hs h hq

/-- Each observer has been told about the messages of its conversation, each of them once. -/
theorem replies_perm_conversation {vc : MessageVC} {e : Env} {uid : UID}
    (hev : .pressed (.viewDidAppear vc) e ∈ s.log)
    (hu : s₀.app.currentUser vc.client = some uid) :
    (replies ⟨vc, e.key⟩ s.log).Perm
      ((conversation s₀.app.currentUser s.log uid vc.uid).map fun m => (m.id, m.message)) := by
  have hist := history_of_reaches hs h
  have hids : ((sentMessages s₀.app.currentUser s.log).map Sent.id).Nodup :=
    nodup_map_filterMap (fun _ _ => key_of_sentBy) hist.keys.nodup
  have hconv : ((conversation s₀.app.currentUser s.log uid vc.uid).map
      fun m => (m.id, m.message)).Nodup := by
    refine .of_map Prod.fst ?_
    rw [List.map_map]
    exact hids.sublist (List.filter_sublist.map _)
  refine (List.perm_ext_iff_of_nodup (.of_map _ (replies_nodup hs h _)) hconv).2 fun x => ?_
  rw [List.mem_map]
  constructor
  · intro hx
    obtain ⟨ev, hlog, hx⟩ := mem_replies.1 hx
    unfold replyOf at hx
    split at hx
    · next c call id dict e' =>
      split at hx
      · next hc =>
        obtain ⟨uid', hu', m, hm, hbetween, he⟩ := sent_of_messageRead hs.initial hs.tree
          Delivers.sameAccounts h (.inr ⟨e', hlog⟩)
        cases he
        subst hc
        obtain rfl : uid = uid' := Option.some.inj (hu.symm.trans hu')
        simp only [Sent.decode_value, Option.map_some, Option.some.injEq] at hx
        exact ⟨m, mem_conversation.2 ⟨hm, hbetween⟩, hx⟩
      · cases hx
    · cases hx
  · rintro ⟨m, hm, rfl⟩
    obtain ⟨hm, hbetween⟩ := mem_conversation.1 hm
    exact mem_replies_of_sent hs h hq hm hev hu hbetween

/-- The array of a call holds the conversation. -/
theorem messages_perm_conversation {vc : MessageVC} {e : Env} {uid : UID}
    (hev : .pressed (.viewDidAppear vc) e ∈ s.log)
    (hu : s₀.app.currentUser vc.client = some uid) :
    (s.app.messages ⟨vc, e.key⟩).Perm
      ((conversation s₀.app.currentUser s.log uid vc.uid).map Sent.message) := by
  rw [(screen_of_reaches hs h).messages]
  have := (replies_perm_conversation hs h hq hev hu).map Prod.snd
  rwa [List.map_map] at this

/-- When everything has been delivered, a view controller that has appeared shows every message of
its conversation once, as it was sent, and no other. -/
theorem messagesArray_perm_conversation {vc : MessageVC} {uid : UID}
    (happeared : ∃ e, .pressed (.viewDidAppear vc) e ∈ s.log)
    (hu : s₀.app.currentUser vc.client = some uid) :
    (s.app.messagesArray vc).Perm
      ((conversation s₀.app.currentUser s.log uid vc.uid).map Sent.message) := by
  rcases (screen_of_reaches hs h).latest vc with ⟨call, rfl, harr, hne⟩ | ⟨harr, hempty⟩
  · -- the call that delivered last has a reply, so an appearance made it
    obtain ⟨e, hid, hev⟩ := viewDidAppear_of_messages hs h hne
    rw [harr]
    have := messages_perm_conversation hs h hq hev hu
    rwa [← hid] at this
  · obtain ⟨e, hev⟩ := happeared
    have := messages_perm_conversation hs h hq hev hu
    rwa [hempty _ rfl, ← harr] at this

end Conversation

/-! ## An exchange -/

/-- Alice and Bob on a device each, with nothing sent yet. -/
def start : MState where
  tree := ∅
  objects := fun _ => none
  writes := []
  asks := []
  tasks := []
  childObs := []
  valueObs := []
  issued := []
  log := []
  app := {
    currentUser := fun c => if c = 0 then some "alice" else if c = 1 then some "bob" else none
    messages := fun _ => []
    messagesArray := fun _ => []
    timer := fun _ => false
    blocks := fun _ => 0
    itemCount := fun _ => 0
    trapped := fun _ => false }

theorem start_start : Start start where
  initial := ⟨rfl, rfl, rfl, rfl, rfl, rfl⟩
  tree := rfl
  app := ⟨fun _ => rfl, fun _ => rfl, fun _ => rfl, fun _ => rfl, fun _ => rfl⟩

def aliceVC : MessageVC := ⟨0, "bob", 0⟩

def bobVC : MessageVC := ⟨1, "alice", 0⟩

/-- Alice sends two messages while both have their conversation open. Her device delivers the
replies in the order of the messages, Bob's in the opposite order. -/
def exchange : List MLabel := [
  .press (.viewDidAppear aliceVC) ⟨"a0", 0⟩, .serve 0 true,
  .press (.viewDidAppear bobVC) ⟨"b0", 1⟩, .serve 0 true,
  .press (.sendBtnPressed aliceVC "one") ⟨"m1", 2⟩, .commit 0 true,
  .run 0 ⟨"k1", 3⟩, .commit 0 true, .commit 0 true,
  .run 0 ⟨"k2", 4⟩, .run 0 ⟨"k3", 5⟩, .serve 0 true, .serve 0 true,
  .press (.sendBtnPressed aliceVC "two") ⟨"m2", 6⟩, .commit 0 true,
  .run 2 ⟨"k4", 7⟩, .commit 0 true, .commit 0 true,
  .run 2 ⟨"k5", 8⟩, .run 2 ⟨"k6", 9⟩, .serve 0 true, .serve 0 true,
  .run 0 ⟨"k7", 10⟩, .run 1 ⟨"k8", 11⟩, .run 1 ⟨"k9", 12⟩, .run 0 ⟨"k10", 13⟩]

theorem exchange_runs :
    (exec (step (program fun _ => none)) Delivers start exchange).isSome = true := by
  decide +kernel

/-- The state in which the exchange ends. -/
def exchanged : MState :=
  (exec (step (program fun _ => none)) Delivers start exchange).get exchange_runs

theorem exchanged_reached :
    Reaches (step (program fun _ => none)) Delivers start exchanged :=
  .of_exec (Option.some_get _).symm

theorem exchanged_quiescent : exchanged.Quiescent := ⟨rfl, rfl, rfl⟩

theorem messagesArray_perm_conversation_exchanged :
    (exchanged.app.messagesArray bobVC).Perm [
      { fromId := some "alice", toId := some "bob", timeStamp := some 6, message := some "two" },
      { fromId := some "alice", toId := some "bob", timeStamp := some 2, message := some "one" }] :=
  messagesArray_perm_conversation start_start exchanged_reached exchanged_quiescent
    ⟨⟨"b0", 1⟩, List.mem_of_getElem? (i := 23) rfl⟩ rfl

end FLChat.Messages
