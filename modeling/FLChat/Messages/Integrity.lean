import FLChat.Messages.Delivery
import FLChat.Realtime.Values

/-!
# References

What holds of the database whatever is rejected, whichever process ends when, and whoever signs in
or out: the entries of `users_messages` are written by the completion of an accepted record, so
every entry names a record of its two users, complete and in one of the two shapes
(`references_intact`), and no reply makes `observUserMessages` unwrap `nil`.
-/

namespace FLChat.Messages

open Realtime

variable {jpegData : UIImage → Option Data} {s₀ s s' : MState} {c : Client} {id : String}

/-- The steps of any run: every write may be rejected, a process may end between any two steps, and
anybody may sign in or out. -/
def AnyStep (_ : MState) (_ : MLabel) : Prop := True

instance (s : MState) : DecidablePred (AnyStep s) := fun _ => isTrue trivial

/-- Nothing is asked of the program state. -/
def anyApp : Guard Loc Client Cb Data App Action := fun _ _ => True

theorem anyApp_holds (s : MState) (l : MLabel) : anyApp.Holds s l := by
  cases l with
  | run => exact fun _ _ => trivial
  | press | commit | serve | die => trivial

/-! ## A record is written once -/

/-- The key of a record. -/
def Loc.recordKey : Loc → Option String
  | .messages id => some id
  | .usersMessages .. => none

theorem handleSend_length (vc : MessageVC) (text : String) (url : Option DownloadURL)
    (img : Option UIImage) (e : Env) (app : App) :
    (handleSend c vc text url img e app).2.length ≤ 1 := by
  unfold handleSend
  cases app.currentUser c <;> cases url <;> cases img <;> simp

theorem act_length {a : Action} {e : Env} {app app' : App} {cmds : List Command}
    (hact : act jpegData a e app = some (c, app', cmds)) : cmds.length ≤ 1 := by
  unfold act at hact
  split at hact
  · cases hact
  cases a with
  | viewDidAppear vc =>
    cases hact
    unfold observUserMessages
    split <;> simp
  | sendBtnPressed vc text =>
    simp only at hact
    split at hact
    · cases hact
    · obtain ⟨-, hsend⟩ := Prod.mk.inj (Option.some.inj hact)
      have hlength := handleSend_length (c := vc.client) vc text none none e app
      rwa [hsend] at hlength
  | pickImage vc image =>
    obtain ⟨-, hupload⟩ := Prod.mk.inj (Option.some.inj hact)
    have hlength : (uploadToStorageUsingImage jpegData vc image app).2.length ≤ 1 := by
      unfold uploadToStorageUsingImage
      split
      · simp
      · split <;> simp
    rwa [hupload] at hlength
  | timerFired vc | reloadCollection vc =>
    simp only at hact
    split at hact <;> cases hact
    simp
  | signOut | signIn =>
    cases hact
    simp

theorem key_of_issues {user : Client → Option UID} {ev : MEvent} {l : Loc} {v : Val l}
    {cb : Option Cb} (h : Issues jpegData user ev c (.write (.update l v) cb)) {k : String}
    (hk : k ∈ l.recordKey) : ev.key? = some k := by
  cases h with
  | send hm =>
    cases hk
    exact key_of_sentBy hm
  | index | recipientIndex => cases hk

/-- At most one command writes at most one record. -/
theorem pairwise_of_length {R : Command → Command → Prop} {cmds : List Command}
    (h : cmds.length ≤ 1) : cmds.Pairwise R := by
  cases cmds with
  | nil => exact .nil
  | cons cmd cmds =>
    obtain rfl : cmds = [] := List.length_eq_zero_iff.1 (by simpa using h)
    exact List.pairwise_singleton _ _

theorem drawsKeys : DrawsKeys (program jpegData) Loc.recordKey where
  act hact := by
    refine ⟨fun l v cb hcmd k hk => ?_, pairwise_of_length (act_length hact)⟩
    exact (Option.some.inj (key_of_issues (issues_of_act rfl hact hcmd) hk)).symm
  handle c e cb input app := by
    refine ⟨fun l v cb' hcmd k hk => ?_, ?_⟩
    · have hi : Issues jpegData _ _ _ _ := issues_of_handle rfl hcmd
      exact (Option.some.inj (key_of_issues hi hk)).symm
    · simp only [program_handle]
      unfold handle
      split
      · exact .nil
      split
      · next fromId toId messageId ok =>
        cases ok with
        | false => exact .nil
        | true =>
          -- the two entries are no records
          refine List.pairwise_cons.2 ⟨fun cmd _ l v cb v' cb' hkey he => ?_,
            List.pairwise_singleton _ _⟩
          cases he
          cases hkey
      · exact List.pairwise_singleton _ _
      · exact .nil
      · exact List.pairwise_singleton _ _
      · exact pairwise_of_length (handleSend_length ..)
      · exact .nil

/-! ## Where records and entries come from -/

/-- What the backend guarantees of every state of any run. -/
structure Facts (jpegData : UIImage → Option Data) (s : MState) : Prop where
  origin : Origin (program jpegData) anyApp s
  keys : KeysFresh s
  kept : PresentOrRemoved s
  once : WrittenOnce Loc.recordKey s
  values : ValuesWritten (fun l => l.recordKey.isSome = true) s

theorem Facts.of_reaches {ok : MState → MLabel → Prop} (hs : Initial s₀) (htree : s₀.tree = ∅)
    (h : Reaches (step (program jpegData)) ok s₀ s) : Facts jpegData s where
  origin := .of_reaches hs htree (fun _ _ => anyApp_holds _ _) h
  keys := .of_reaches hs h
  kept := .of_reaches hs h
  once := .of_reaches hs drawsKeys h
  values := WrittenOnce.valuesWritten hs htree drawsKeys h

namespace Facts

/-- A record is written as some message is sent. -/
theorem sent_of_write {log : List MEvent} {d : MessageDict} {cb : Option Cb}
    (h : Issued (program jpegData) anyApp log c (.write (.update (.messages id) d) cb)) :
    ∃ m : Sent, m.id = id ∧ d = m.value ∧ cb = some (.messageWritten m.fromId m.toId m.id) ∧
      ∃ ev ∈ log, ∃ user, sentBy user ev = some m := by
  obtain ⟨ev, hev, app, -, hi⟩ := issues_in_app h
  cases hi with
  | send hm => exact ⟨_, rfl, rfl, rfl, ev, hev, _, hm⟩

theorem not_remove {log : List MEvent} {p : Path} {cb : Option Cb} :
    ¬ Issued (program jpegData) anyApp log c (.write (.remove p) cb) := by
  intro h
  obtain ⟨ev, -, app, -, hi⟩ := issues_in_app h
  cases hi

theorem mem_tree_iff (h : Facts jpegData s) {l : Loc} : l ∈ s.tree ↔ Written s.log l := by
  refine ⟨h.origin.tree l, fun ⟨c, v, hr⟩ => ?_⟩
  rcases h.kept c l v hr with hl | ⟨c', p, hp, -⟩
  · exact hl
  · obtain ⟨cb, hi⟩ := h.origin.log _ hp
    exact absurd hi not_remove

/-- An accepted record is there as it was written. -/
theorem lookup_of_resolved (h : Facts jpegData s) {d : MessageDict}
    (hr : .resolved c (.update (.messages id) d) true ∈ s.log) :
    s.tree.lookup (.messages id) = some d := by
  obtain ⟨d', hd'⟩ := Option.isSome_iff_exists.1
    (AList.lookup_isSome.2 ((h.mem_tree_iff (l := .messages id)).2 ⟨c, d, hr⟩))
  obtain ⟨c', hr'⟩ := h.values (.messages id) d' rfl hd'
  obtain ⟨-, rfl, -⟩ := h.once.once (.messages id) rfl _ _ _ _ _ _ hr hr'
  exact hd'

/-- The completion of a record knows the message that it holds. -/
theorem record_of_completion (h : Facts jpegData s) {fromId toId : UID} {ok : Bool} {e : Env}
    (hev : .ran ⟨c, .messageWritten fromId toId id, .acked ok⟩ e ∈ s.log) :
    ∃ m : Sent, m.id = id ∧ m.fromId = fromId ∧ m.toId = toId ∧
      .resolved c (.update (.messages id) m.value) ok ∈ s.log := by
  obtain ⟨op, hi, hr⟩ := h.origin.log _ hev
  obtain ⟨ev, -, app, -, hi⟩ := issues_in_app hi
  cases hi with
  | send hm => exact ⟨_, rfl, rfl, rfl, hr⟩

/-- An entry is written by the completion of its record. -/
theorem completion_of_entry {log : List MEvent} {u v : UID} {n : ℕ} {cb : Option Cb}
    (hi : Issued (program jpegData) anyApp log c
      (.write (.update (.usersMessages u v id) n) cb)) :
    ∃ fromId toId e, .ran ⟨c, .messageWritten fromId toId id, .acked true⟩ e ∈ log ∧
      (u = fromId ∧ v = toId ∨ u = toId ∧ v = fromId) := by
  obtain ⟨ev, hev, app, -, hi⟩ := issues_in_app hi
  cases hi with
  | index => exact ⟨_, _, _, hev, .inl ⟨rfl, rfl⟩⟩
  | recipientIndex => exact ⟨_, _, _, hev, .inr ⟨rfl, rfl⟩⟩

/-- An entry names an accepted record of its two users. -/
theorem record_of_entry (h : Facts jpegData s) {u v : UID}
    (hw : Written s.log (.usersMessages u v id)) :
    ∃ (c : Client) (m : Sent), m.id = id ∧ m.Between u v ∧
      .resolved c (.update (.messages id) m.value) true ∈ s.log := by
  obtain ⟨c, n, hr⟩ := hw
  obtain ⟨cb, hi⟩ := h.origin.log _ hr
  obtain ⟨fromId, toId, e, hev, hsides⟩ := completion_of_entry hi
  obtain ⟨m, hid, rfl, rfl, hr⟩ := h.record_of_completion hev
  refine ⟨c, m, hid, ?_, hr⟩
  rcases hsides with ⟨rfl, rfl⟩ | ⟨rfl, rfl⟩
  · exact .inl ⟨rfl, rfl⟩
  · exact .inr ⟨rfl, rfl⟩

end Facts

/-! ## References -/

/-- A record of a message of `u` and `v`: a text, or a picture with its size. -/
structure Intact (u v : UID) (d : MessageDict) : Prop where
  users : d.fromId = some u ∧ d.toId = some v ∨ d.fromId = some v ∧ d.toId = some u
  timeStamp : d.timeStamp.isSome
  content : d.message.isSome ∧ d.imageUrl = none ∧ d.imageWidth = none ∧ d.imageHeight = none ∨
    d.message = none ∧ d.imageUrl.isSome ∧ d.imageWidth.isSome ∧ d.imageHeight.isSome

theorem Sent.intact {m : Sent} {u v : UID} (h : m.Between u v) : Intact u v m.value := by
  obtain ⟨id, fromId, toId, timeStamp, content⟩ := m
  have husers : some fromId = some u ∧ some toId = some v ∨
      some fromId = some v ∧ some toId = some u := by
    simpa [Sent.Between] using h
  cases content with
  | text message => exact ⟨husers, rfl, .inl ⟨rfl, rfl, rfl, rfl⟩⟩
  | picture url width height => exact ⟨husers, rfl, .inr ⟨rfl, rfl, rfl, rfl⟩⟩

/-- A record can be decoded. -/
def Decodable : (l : Loc) → Val l → Prop
  | .messages _, d => d.decode.isSome
  | .usersMessages .., _ => True

theorem isSome_decode {d : MessageDict} :
    d.decode.isSome ↔ d.fromId.isSome ∧ d.toId.isSome ∧ d.timeStamp.isSome := by
  unfold MessageDict.decode
  cases d.fromId <;> cases d.toId <;> cases d.timeStamp <;> simp

theorem mergeable_decodable : Mergeable Decodable := by
  intro l new old hnew _
  cases l with
  | usersMessages => trivial
  | messages id =>
    obtain ⟨hfrom, hto, htime⟩ := isSome_decode.1 hnew
    obtain ⟨fromId, hfrom⟩ := Option.isSome_iff_exists.1 hfrom
    obtain ⟨toId, hto⟩ := Option.isSome_iff_exists.1 hto
    obtain ⟨timeStamp, htime⟩ := Option.isSome_iff_exists.1 htime
    refine isSome_decode.2 ?_
    simp [Schema.merge, MessageDict.updateChildValues, hfrom, hto, htime]

/-- Every entry names a record of its two users that is complete, and no reply traps the client
that reads it. -/
structure NoneDangling (s : MState) : Prop where
  entries : ∀ u v id, Loc.usersMessages u v id ∈ s.tree →
    ∃ d, s.tree.lookup (.messages id) = some d ∧ Intact u v d
  reads : ∀ c call id v, Due s ⟨c, .messageRead call, .value (.messages id) v⟩ →
    ∀ app, (messageRead c call v app).trapped = app.trapped

theorem references_intact (hs : Initial s₀) (htree : s₀.tree = ∅)
    (h : Reaches (step (program jpegData)) AnyStep s₀ s) : NoneDangling s where
  entries u v id hmem := by
    have hf := Facts.of_reaches hs htree h
    obtain ⟨c, m, rfl, hbetween, hr⟩ := hf.record_of_entry (hf.mem_tree_iff.1 hmem)
    exact ⟨m.value, hf.lookup_of_resolved hr, m.intact hbetween⟩
  reads c call id v hdue app := by
    cases v with
    | none => rfl
    | some d =>
      have hd : Decodable (.messages id) d := by
        refine all_of_reply mergeable_decodable (fun l v hv => ?_) (fun t ht w hw l v hop => ?_) h
          hs hdue
        · simp [htree] at hv
        · cases l with
          | usersMessages => trivial
          | messages id' =>
            have hi := (Facts.of_reaches hs htree ht).origin.writes w hw
            rw [hop] at hi
            obtain ⟨m, -, rfl, -⟩ := Facts.sent_of_write hi
            rw [Decodable, Sent.decode_value]
            rfl
      obtain ⟨message, hdecode⟩ := Option.isSome_iff_exists.1 hd
      rw [messageRead, hdecode]
      rfl

theorem references_intact_exchanged : NoneDangling exchanged :=
  references_intact start_start.initial start_start.tree
    (exchanged_reached.mono fun _ _ _ => trivial)

end FLChat.Messages
