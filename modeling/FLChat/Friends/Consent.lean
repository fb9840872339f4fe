import FLChat.Friends.Profiles
import FLChat.Friends.Rejection

/-!
# Consent

Whom a user accepts has asked him. The incoming list takes its entries from an index that holds the
requests of both directions, and leaves out those with the e-mail of its own user: what remains was
sent by the peer (`Asked`), and it goes on being true of an entry that is still on the screen when
its request is gone. A record of `friends` was therefore preceded by a request from the one side to
the other (`friends_consented`).
-/

namespace FLChat.Friends

open Realtime

variable {email : UID → String} {s₀ s s' : FState} {l : FLabel} {c : Client} {k : String}

/-- A client of `f` wrote a request from `f` to `t`. -/
def Asked (log : List FEvent) (f t : UID) : Prop :=
  ∃ (c : Client) (k : String) (r : RequestDict),
    .resolved c (.update (.friendRequest k) r) true ∈ log ∧ c.uid = f ∧ r.fromId = f ∧ r.toId = t

theorem Asked.mono {log log' : List FEvent} (hlog : ∀ ev ∈ log, ev ∈ log') {f t : UID}
    (h : Asked log f t) : Asked log' f t := by
  obtain ⟨c, k, r, hr, h⟩ := h
  exact ⟨c, k, r, hlog _ hr, h⟩

/-- The friendship is between two accounts, and the accepted one has asked the other. -/
structure Consented (log : List FEvent) (c : Client) (d : FriendDict) : Prop where
  accepted : c.uid = d.toId
  ne : d.fromId ≠ d.toId
  asked : Asked log d.fromId d.toId

/-- The entry shows a user who has asked the one signed in on `c`. -/
def ShowsAsker (log : List FEvent) (c : Client) (users : Users) : Prop :=
  ∃ f, users.userId = some f ∧ f ≠ c.uid ∧ Asked log f c.uid

section Run

variable (hs : Start s₀) (h : Reaches (step (program email)) (Loads email) s₀ s)
include hs h

/-- A request that is read for the incoming list and has another e-mail than the user's own was
sent to him. -/
theorem asked_of_userRead {call : Call} {d : RequestDict} (hlist : call.list = .incoming)
    (ht : ⟨call.client, .userRead call .fromIdUser, .value (.friendRequest k) (some d)⟩ ∈ s.tasks)
    (hmatch : matchesQuery call.query d.fromIdUser.email (email call.client.uid) = true) :
    ShowsAsker s.log call.client d.fromIdUser.users := by
  have hf := loaded_of_reaches hs h
  have hother := ne_of_matchesQuery hmatch
  obtain ⟨-, -, k', peer, he, hbetween⟩ := hf.incoming_of_userRead (hf.origin.tasks _ ht) hlist
  cases he
  -- the user's own requests have his e-mail
  have hown : ∀ {c'} {cb : Option Cb}, Issued (program email) (Loaded email) s.log c'
      (.write (.update (.friendRequest k) d) cb) →
      d.fromIdUser.uid = d.fromId ∧ d.fromId ≠ call.client.uid := fun hi =>
    have hgenuine := request_genuine hi
    ⟨hgenuine.1, fun he => hother (hgenuine.2.trans (congrArg email he))⟩
  rcases written_of_reply hs.initial (fun _ _ => rfl) (fun _ hu => (loaded_of_reaches hs hu).origin)
    (fun _ hu => (loaded_of_reaches hs hu).values) h (.inl ht) with ⟨c', hr⟩ | ⟨cb, hi⟩
  · obtain ⟨cb, hi⟩ := hf.origin.log _ hr
    obtain ⟨hsent, hfrom⟩ := Traced.request_issued hi
    obtain ⟨huid, hne⟩ := hown hi
    have hto : d.toId = call.client.uid := by
      rcases hbetween with hsent' | hsent'
      · exact absurd (hf.sent_unique ⟨c', hfrom.symm, hsent⟩ hsent').1 hne
      · exact (hf.sent_unique ⟨c', hfrom.symm, hsent⟩ hsent').2
    exact ⟨d.fromId, congrArg some huid, hne, c', k, d, hr, hfrom.symm, rfl, hto⟩
  · exact absurd (Traced.request_issued hi).2 (hown hi).2

/-- Everybody that an incoming list shows has asked. -/
theorem shown_asked : Shown (ShowsAsker s.log) s.app := by
  refine Shown.of_reaches hs (fun _ _ hl => hl.succeeds.proceeds) (fun ev log c x hx => ?_)
    (fun t ht call k d hmem hlist hmatch => asked_of_userRead hs ht hlist hmem hmatch) h
  obtain ⟨f, hid, hne, hasked⟩ := hx
  exact ⟨f, hid, hne, hasked.mono fun _ => List.mem_cons_of_mem _⟩

end Run

/-- A friends record is written for the entry that its client has opened. -/
theorem selected_of_friend {ev : FEvent} {app : App} {d : FriendDict} {cb : Option Cb}
    (hi : Issues email ev app c (.write (.update (.friends k) d) cb)) :
    c.uid = d.toId ∧ ∃ x ∈ app.selected c, x.userId = some d.fromId := by
  cases hi with
  | friend hpeer => exact ⟨rfl, _, hpeer, rfl⟩

/-- Every friends record that waits to be written is consented. -/
theorem consented_waiting (hs : Start s₀)
    (h : Reaches (step (program email)) (Loads email) s₀ s) :
    ∀ w ∈ s.writes, ∀ k d, w.op = .update (.friends k) d → Consented s.log w.client d := by
  refine h.invariant_of_reached
    (I := fun s => ∀ w ∈ s.writes, ∀ k d, w.op = .update (.friends k) d →
      Consented s.log w.client d) ?_ fun {t l u} ht ih hl hstep w hw k d hop => ?_
  · simp [hs.initial.writes]
  · have hs' := transition_of_step hstep
    have keep : ∀ {d}, Consented t.log w.client d → Consented u.log w.client d := fun hd =>
      { hd with asked := hd.asked.mono hs'.log_mono }
    have new : ∀ {ev cb}, Issues email ev t.app w.client (.write (.update (.friends k) d) cb) →
        Consented t.log w.client d := fun hi => by
      obtain ⟨hto, x, hx, hid⟩ := selected_of_friend hi
      obtain ⟨f, hid', hne, hasked⟩ := (shown_asked hs ht).selected _ _ hx
      obtain rfl : f = d.fromId := Option.some.inj (hid'.symm.trans hid)
      rw [hto] at hne hasked
      exact ⟨hto, hne, hasked⟩
    rcases mem_writes_step hw hs' with hw | ⟨a, e, app, cmds, -, hact, hcmd, -⟩ |
      ⟨i, task, e, app, cmds, -, hc, hrun, hcmd, -⟩
    · exact keep (ih w hw k d hop)
    · rw [hop] at hcmd
      exact keep (new (issues_of_act hact hcmd))
    · rw [hop] at hcmd
      rw [hc] at hrun
      exact keep (new (issues_of_run hrun hcmd))

/-- Nobody is befriended who has not asked: every record of `friends` was written by a client of
`toId`, after a client of `fromId`, who is somebody else, had written a request to `toId`. -/
theorem friends_consented (hs : Start s₀)
    (h : Reaches (step (program email)) (Loads email) s₀ s) {d : FriendDict}
    (hd : s.tree.lookup (.friends k) = some d) :
    ∃ (c : Client) (before : List FEvent),
      .resolved c (.update (.friends k) d) true :: before <:+ s.log ∧ Consented before c d := by
  have hf := loaded_of_reaches hs h
  obtain ⟨c, hr⟩ := hf.values _ _ trivial hd
  obtain ⟨after, before, hlog⟩ := List.append_of_mem hr
  have hsuffix : .resolved c (.update (.friends k) d) true :: before <:+ s.log := ⟨after, hlog.symm⟩
  refine ⟨c, before, hsuffix, ?_⟩
  exact of_resolved_suffix
    (Q := fun log c op => ∀ k d, op = .update (.friends k) d → Consented log c d) hs.initial
    (fun t ht w hw => consented_waiting hs ht w hw) h hsuffix k d rfl

/-- Alice asks, and Bob accepts her. -/
def consenting : List FLabel := asking ++ acceptAlice :: accepting true

theorem consenting_runs :
    (exec (step (program mail)) (Loads mail) start consenting).isSome = true := by
  decide +kernel

def consented : FState :=
  (exec (step (program mail)) (Loads mail) start consenting).get consenting_runs

theorem friends_consented_alice :
    ∃ (c : Client) (before : List FEvent),
      .resolved c (.update (.friends "f")
        ⟨"alice", found "alice", "bob", ⟨"bob", "bob", "User image", mail "bob", "User phone", true⟩,
          10, true⟩) true :: before <:+ consented.log ∧
      Consented before c ⟨"alice", found "alice", "bob",
        ⟨"bob", "bob", "User image", mail "bob", "User phone", true⟩, 10, true⟩ :=
  friends_consented start_start (.of_exec (Option.some_get _).symm) rfl

end FLChat.Friends
