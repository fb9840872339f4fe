import FLChat.Friends.Calls
import FLChat.Friends.Removal

/-!
# The lists of requests

A call of `getUsersWhoSendRequestToFriends` or `getUsersWhomFriendRequestBeenSend` observes the
index of its user, and the entries with each peer that the index announces. Nothing observes that an
entry goes away. So whatever is pending when nothing is in flight has been delivered
(`delivered_of_pending`), and what has been delivered is still in the index unless requests with
that peer were removed (`entry_of_delivered`).
-/

namespace FLChat.Friends

open Realtime

variable {email : UID → String} {s₀ s₁ s t u : FState} {l : FLabel} {c : Client} {call : Call}
  {peer : UID} {k : String} {d : RequestDict}

/-- A run of which nothing is asked. -/
def AnyStep (_ : FState) (_ : FLabel) : Prop := True

/-- The process of `c` goes on, and the server takes whatever it writes. The SDK shows a client its
own writes before the server has answered them, so a list shows what is rejected later. -/
def KeepsUp (c : Client) (s : FState) : FLabel → Prop
  | .die c' => c' ≠ c
  | .commit i ok => ok = true ∨ ∀ w ∈ s.writes[i]?, w.client ≠ c
  | .press .. | .run .. | .serve .. => True

/-- The side of a request that a list shows. -/
def FriendList.requestSide : FriendList → Side
  | .sent => .toIdUser
  | .friends | .incoming => .fromIdUser

/-- A list leaves out the requests whose shown user has the e-mail of the signed-in user. -/
def FriendList.shows (list : FriendList) (email : UID → String) (uid : UID) (d : RequestDict) :
    Prop :=
  (d.side list.requestSide).email ≠ email uid

/-- The requests that a list is about: those sent to the user, or those sent by the user. -/
def FriendList.concerns (list : FriendList) (uid : UID) (d : RequestDict) : Prop :=
  match list with
  | .friends => False
  | .incoming => d.toId = uid
  | .sent => d.fromId = uid

/-- The request `k` with the peer is in the index of `uid`, and its record is there. -/
structure PendingRequest (s : FState) (uid peer : UID) (k : String) (d : RequestDict) : Prop where
  entry : Loc.userFriendRequest uid peer k ∈ s.tree
  record : s.tree.lookup (.friendRequest k) = some d

/-- Requests with the peer were removed from the index of `uid`. -/
def RemovedWith (log : List FEvent) (uid peer : UID) : Prop :=
  ∃ c, .resolved c (.remove (friendRequestsWith uid peer)) true ∈ log

/-! ## What is read for a request -/

/-- A key is in the index of a user with one peer. -/
theorem Traced.peer_unique {G : Guard Loc Client Cb Unit App Action} (h : Traced email G s)
    {uid peer' : UID} (hw : Written s.log (.userFriendRequest uid peer k))
    (hw' : Written s.log (.userFriendRequest uid peer' k)) : peer = peer' := by
  rcases h.between_unique (h.between_of_written hw) (h.between_of_written hw') with
    ⟨-, hpeer⟩ | ⟨hpeer, huid⟩
  · exact hpeer
  · exact huid.trans hpeer

theorem record_of_ne (hlist : call.list ≠ .friends) (k : String) :
    call.list.record k = .friendRequest k := by
  cases hcase : call.list with
  | friends => exact absurd hcase hlist
  | incoming | sent => rfl

theorem shownSide_of_ne (hlist : call.list ≠ .friends) :
    shownSide c call.list none = some call.list.requestSide := by
  cases hcase : call.list with
  | friends => exact absurd hcase hlist
  | incoming | sent => rfl

/-- A record is read when the index has announced its entry. -/
theorem Traced.announced_of_recordRead {G : Guard Loc Client Cb Unit App Action} {log : List FEvent}
    {l : Loc} (hi : Issued (program email) G log c (.ask (.single l (.recordRead call)))) :
    ∃ k e, l = call.list.record k ∧ .ran ⟨c, .entryAdded call, .childAdded k⟩ e ∈ log := by
  obtain ⟨ev, hev, app, -, hi⟩ := issues_of_issued hi
  cases hi with
  | readRecord => exact ⟨_, _, rfl, hev⟩

/-- A list of requests reads the side that it shows of a request that was announced to it. -/
theorem Traced.request_of_readSide {G : Guard Loc Client Cb Unit App Action}
    (h : Traced email G s) (hlist : call.list ≠ .friends) {l : Loc} {side : Side}
    (hread : ReadSide s.log c call l side) :
    side = call.list.requestSide ∧ ∃ k e, l = .friendRequest k ∧
      .ran ⟨c, .entryAdded call, .childAdded k⟩ e ∈ s.log := by
  have announced : ∀ {l v e}, .ran ⟨c, .recordRead call, .value l v⟩ e ∈ s.log →
      ∃ k e, l = .friendRequest k ∧ .ran ⟨c, .entryAdded call, .childAdded k⟩ e ∈ s.log := by
    intro l v e hev
    rcases h.origin.log _ hev with hi | hi
    · obtain ⟨k, e, rfl, hev⟩ := announced_of_recordRead hi
      exact ⟨k, e, record_of_ne hlist k, hev⟩
    · obtain ⟨call', side, he⟩ := userRead_of_value hi
      cases he
  cases hread with
  | friends hev =>
    obtain ⟨k, e, he, -⟩ := announced hev
    cases he
  | friendRequest hev hside =>
    rw [shownSide_of_ne hlist] at hside
    exact ⟨(Option.some.inj hside).symm, announced hev⟩

/-- What was announced to a list of requests is an entry of its user. -/
theorem Traced.entry_of_announced {G : Guard Loc Client Cb Unit App Action}
    (h : Traced email G s) (hlist : call.list ≠ .friends) {e : Env}
    (hev : .ran ⟨c, .entryAdded call, .childAdded k⟩ e ∈ s.log) :
    call.client = c ∧ ∃ peer, Written s.log (.userFriendRequest c.uid peer k) := by
  obtain ⟨p, l, c', n, hi, hr, hkey⟩ := h.origin.log _ hev
  obtain ⟨rfl, ⟨hfriends, -⟩ | ⟨-, peer, rfl⟩⟩ := h.entryAdded_issued hi
  · exact absurd hfriends hlist
  · obtain rfl := childKey_friendRequestsWith.1 hkey
    exact ⟨rfl, peer, c', n, hr⟩

/-- A list of requests observes the index of its user. -/
theorem Traced.index_of_peerAdded {G : Guard Loc Client Cb Unit App Action} {log : List FEvent}
    {p : Path} (hi : Issued (program email) G log c (.ask (.childAdded p (.peerAdded call)))) :
    call.client = c ∧ p = friendRequestsOf c.uid := by
  obtain ⟨ev, -, app, -, hi⟩ := issues_of_issued hi
  cases hi with
  | searchRequests hlist => exact ⟨rfl, rfl⟩

theorem childKey_friendRequestsOf {uid : UID} {l : Loc} :
    Tree.childKey (friendRequestsOf uid) l = some peer ↔
      ∃ k, l = .userFriendRequest uid peer k := by
  constructor
  · intro h
    have hp := Tree.prefix_of_childKey h
    cases l with
    | userFriendRequest u v k =>
      obtain rfl : uid = u := by simpa [friendRequestsOf, path] using hp
      obtain rfl : v = peer := by simpa [Tree.childKey, friendRequestsOf, path] using h
      exact ⟨k, rfl⟩
    | friendRequest | friends | userFriends => simp [friendRequestsOf, path] at hp
  · rintro ⟨k, rfl⟩
    simp [Tree.childKey, friendRequestsOf, path]

/-! ## A request that is pending in the end -/

/-- The entry is written for this peer only, and from then on the record is there, and no write of
`c` that waits changes it. -/
structure StaysPending (c : Client) (peer : UID) (k : String) (d : RequestDict) (s : FState) :
    Prop where
  unique : ∀ peer', Written s.log (.userFriendRequest c.uid peer' k) → peer' = peer
  record : Written s.log (.userFriendRequest c.uid peer k) →
    s.tree.lookup (.friendRequest k) = some d
  untouched : Written s.log (.userFriendRequest c.uid peer k) →
    ∀ w ∈ s.writes, w.client = c → w.op.touches (.friendRequest k) = false

/-- Once the entry is written, only a removal touches the record. -/
theorem removal_of_touches (hset : RecordSettled t) {uid : UID}
    (hw : Written t.log (.userFriendRequest uid peer k)) {w : Write Loc Client Cb}
    (hmem : w ∈ t.writes) (htouch : w.op.touches (.friendRequest k) = true) :
    ∃ p, w.op = .remove p ∧ p <+: path (Loc.friendRequest k) := by
  cases hop : w.op with
  | update r v =>
    rw [hop] at htouch
    obtain rfl : r = .friendRequest k := of_decide_eq_true htouch
    exact absurd rfl (hset _ hw.answered rfl w hmem (.friendRequest k) v hop rfl)
  | remove p =>
    rw [hop] at htouch
    exact ⟨p, rfl, List.isPrefixOf_iff_prefix.1 htouch⟩

/-- A write after which the record is there does not touch it. -/
theorem not_touches_of_lookup (hset : RecordSettled t) {uid : UID}
    (hw : Written t.log (.userFriendRequest uid peer k)) {w : Write Loc Client Cb}
    (hmem : w ∈ t.writes) (hrecord : (w.op.apply t.tree).lookup (.friendRequest k) = some d) :
    w.op.touches (.friendRequest k) = false := by
  refine Bool.eq_false_iff.2 fun htouch => ?_
  obtain ⟨p, hop, hp⟩ := removal_of_touches hset hw hmem htouch
  have hgone : (t.tree.remove p).lookup (Loc.friendRequest k) = none := by
    rw [Tree.lookup_remove, if_pos (List.isPrefixOf_iff_prefix.2 hp)]
  rw [hop] at hrecord
  exact nomatch hgone.symm.trans hrecord

/-- Before a step after which the record stays, it stayed: nothing writes it any more, and a removal
would have taken it. -/
theorem StaysPending.of_step (hset : RecordSettled t) (hl : KeepsUp c t l)
    (hs : Transition (program email) t l u) (hu : StaysPending c peer k d u) :
    StaysPending c peer k d t := by
  suffices h : Written t.log (.userFriendRequest c.uid peer k) →
      t.tree.lookup (.friendRequest k) = some d ∧
        ∀ w ∈ t.writes, w.client = c → w.op.touches (.friendRequest k) = false from
    ⟨fun peer' hw => hu.unique peer' (hw.mono hs.log_mono), fun hw => (h hw).1, fun hw => (h hw).2⟩
  intro hw
  have hrecord := hu.record (hw.mono hs.log_mono)
  have hown := hu.untouched (hw.mono hs.log_mono)
  cases hs with
  | press | run =>
    exact ⟨hrecord, fun w hmem hc => hown w (List.mem_append_left _ hmem) hc⟩
  | @apply i w hi hfirst =>
    have huntouched := not_touches_of_lookup hset hw (List.mem_of_getElem? hi) hrecord
    rw [State.applied_tree, Op.lookup_apply_of_not_touches huntouched] at hrecord
    refine ⟨hrecord, fun w' hmem hc => ?_⟩
    rcases mem_eraseIdx_or hi hmem with rfl | hmem
    · exact huntouched
    · exact hown w' hmem hc
  | @reject i w hi hfirst =>
    refine ⟨hrecord, fun w' hmem hc => ?_⟩
    rcases mem_eraseIdx_or hi hmem with rfl | hmem
    · exact absurd hc (hl.resolve_left (by simp) w' hi)
    · exact hown w' hmem hc
  | serve => exact ⟨hrecord, hown⟩
  | @die c' =>
    refine ⟨hrecord, fun w hmem hc => hown w (List.mem_filter.2 ⟨hmem, ?_⟩) hc⟩
    exact decide_eq_true fun he => hl (he.symm.trans hc)

/-- What a list of requests reads of the request was announced to it with the peer. -/
theorem StaysPending.written_of_readSide {G : Guard Loc Client Cb Unit App Action}
    (h : StaysPending call.client peer k d s) (htraced : Traced email G s)
    (hlist : call.list ≠ .friends) {side : Side} (hread : ReadSide s.log c call (.friendRequest k) side) :
    call.client = c ∧ Written s.log (.userFriendRequest call.client.uid peer k) := by
  obtain ⟨-, k', e, he, hev⟩ := htraced.request_of_readSide hlist hread
  cases he
  obtain ⟨rfl, peer', hw⟩ := htraced.entry_of_announced hlist hev
  exact ⟨rfl, h.unique _ hw ▸ hw⟩

/-- The steps of a run over which the request stays. -/
def KeepsPending (email : UID → String) (c : Client) (peer : UID) (k : String) (d : RequestDict)
    (s : FState) (l : FLabel) : Prop :=
  KeepsUp c s l ∧ StaysPending c peer k d s ∧
    ∀ u ∈ step (program email) s l, StaysPending c peer k d u

section Run

variable (hs : Start s₀) (h₁ : Reaches (step (program email)) AnyStep s₀ s₁)
include hs h₁

/-- A state of a run since `s₁` is a state of a run from the start. -/
theorem traced_since {ok : FState → FLabel → Prop} (h : Reaches (step (program email)) ok s₁ s) :
    Traced email anyApp s :=
  traced_of_reaches hs (h₁.trans (h.mono fun _ _ _ => trivial))

theorem settled_since {ok : FState → FLabel → Prop} (h : Reaches (step (program email)) ok s₁ s) :
    RecordSettled s :=
  recordSettled_of_reaches hs (h₁.trans (h.mono fun _ _ _ => trivial))

/-- A request that is pending in the end stayed all along. -/
theorem stays_of_reaches (h : Reaches (step (program email)) (KeepsUp c) s₁ s) (hq : s.Quiescent)
    (hp : PendingRequest s c.uid peer k d) :
    Reaches (step (program email)) (KeepsPending email c peer k d) s₁ s := by
  have htraced := traced_since hs h₁ h
  refine h.of_end ⟨fun peer' hw => ?_, fun _ => hp.record, by simp [hq.writes]⟩
    fun ht hl hstep hu => ?_
  · exact htraced.peer_unique hw (htraced.origin.tree _ hp.entry)
  exact hu.of_step (settled_since hs h₁ ht) hl (transition_of_step hstep)

variable (hlist : call.list ≠ .friends) (hnew : weigh (opens call) s₁.log = 0)
include hlist hnew

omit hlist in
/-- Whatever is under way for the call, and whatever has run for it, is so since `s₁`. -/
theorem not_due_of_new {t : Task Loc Client Cb} (hcall : t.cb.call? = some call) : ¬ Due s₁ t := by
  have hopened := callsOpened_of_reaches hs h₁
  rintro (ht | ⟨e, hev⟩)
  · have := hopened.pending _ _ (mem_pending_of_task ht) call hcall
    omega
  · have := hopened.ran _ e hev call hcall
    omega

omit hlist in
theorem ran_since {ok : FState → FLabel → Prop} (h : Reaches (step (program email)) ok s₁ s)
    {t : Task Loc Client Cb} {e : Env} (hcall : t.cb.call? = some call)
    (hev : .ran t e ∈ s.log) : .ran t e ∈ since s₁ s :=
  mem_since (log_suffix h) hev fun hold => not_due_of_new hs h₁ hnew hcall (.inr ⟨e, hold⟩)

/-- The call reads nothing but the record, as long as it stays. -/
theorem read_of_due (h : Reaches (step (program email)) (KeepsPending email call.client peer k d)
    s₁ s) {c' : Client} {side : Side} {v : Option RequestDict}
    (hdue : Due s ⟨c', .userRead call side, .value (.friendRequest k) v⟩) : v = some d := by
  induction h with
  | refl => exact absurd hdue (not_due_of_new hs h₁ hnew rfl)
  | @tail t u l ht hl hstep ih =>
    have hs' := transition_of_step hstep
    have htraced := traced_since hs h₁ ht
    rcases hdue.value_cases hs' with hdue | ⟨ha | ha, rfl⟩ | ⟨i, w, -, rfl, ho, rfl⟩
    · exact ih hdue
    · obtain ⟨call', he⟩ := Traced.recordRead_of_single (htraced.origin.asks _ ha)
      cases he
    · obtain ⟨rfl, hw⟩ := hl.2.1.written_of_readSide htraced hlist
        (Traced.userRead_issued (htraced.origin.asks _ ha))
      refine lookup_view (hl.2.1.record hw) rfl fun w hmem hc htouch => ?_
      rw [hl.2.1.untouched hw w hmem hc] at htouch
      cases htouch
    · -- the record is there after the write that raised the event
      obtain ⟨rfl, hw'⟩ := hl.2.1.written_of_readSide htraced hlist
        (Traced.userRead_issued (htraced.origin.valueObs _ ho))
      exact (hl.2.2 _ hstep).record (hw'.mono hs'.log_mono)

/-! ## Whatever is pending is delivered -/

omit hs h₁ hnew in
theorem searchList_of_ne : searchList call.client call.list call.query call.id =
    .ask (.childAdded (friendRequestsOf call.client.uid) (.peerAdded call)) := by
  obtain ⟨c, list, query, id⟩ := call
  cases list with
  | friends => exact absurd rfl hlist
  | incoming | sent => rfl

section Open

variable (h : Reaches (step (program email)) (KeepsUp call.client) s₁ s) (hq : s.Quiescent)
  {e : Env} (hid : e.key = call.id)
  (hev : .pressed (.search call.client call.list call.query) e ∈ since s₁ s)
include h hq hid hev

/-- The call observes the index of its user, and the entries with every peer that is there. -/
theorem observes_entries {k : String}
    (hmem : Loc.userFriendRequest call.client.uid peer k ∈ s.tree) :
    ⟨call.client, friendRequestsWith call.client.uid peer, .entryAdded call⟩ ∈ s.childObs := by
  have hp : ProgressedSince (program email) anyApp (fun c => c = call.client) s₁ s :=
    .of_reaches (fun _ _ hc hl => hl hc) (fun _ _ => anyApp_holds _ _) h
  have hcovered := (traced_since hs h₁ h).covered
  obtain ⟨app, c, app', cmds, -, hact, hprogress⟩ := hp.pressed _ _ hev
  rw [program_act] at hact
  cases pressed_of_act hact with
  | search =>
    have houter := hprogress rfl _ List.mem_cons_self
    rw [hid, searchList_of_ne hlist] at houter
    have hpeer : peer ∈ s.tree.children (friendRequestsOf call.client.uid) :=
      Tree.mem_children.2 ⟨_, hmem, childKey_friendRequestsOf.2 ⟨_, rfl⟩⟩
    have hdue := hcovered _ (houter.childAdded_of_quiescent hq) peer hpeer
    obtain ⟨e', hran⟩ := hdue.ran_of_quiescent hq
    obtain ⟨app, -, hprogress⟩ := hp.ran _ _ (ran_since hs h₁ hnew h rfl hran)
    exact (hprogress rfl _ List.mem_cons_self).childAdded_of_quiescent hq

/-- A request that is pending when nothing is in flight has been delivered. -/
theorem delivered_of_pending (hp : PendingRequest s call.client.uid peer k d)
    (hmatch : matchesQuery call.query (d.side call.list.requestSide).email
      (email call.client.uid) = true) :
    (k, call.list.entry (d.side call.list.requestSide)) ∈ delivered email call (since s₁ s) := by
  have hprog : ProgressedSince (program email) anyApp (fun c => c = call.client) s₁ s :=
    .of_reaches (fun _ _ hc hl => hl hc) (fun _ _ => anyApp_holds _ _) h
  have htraced := traced_since hs h₁ h
  have hentry : k ∈ s.tree.children (friendRequestsWith call.client.uid peer) :=
    Tree.mem_children.2 ⟨_, hp.entry, childKey_friendRequestsWith.2 rfl⟩
  obtain ⟨e₁, hran⟩ := (htraced.covered _
    (observes_entries hs h₁ hlist hnew h hq hid hev hp.entry) k hentry).ran_of_quiescent hq
  obtain ⟨app, -, hprogress⟩ := hprog.ran _ _ (ran_since hs h₁ hnew h rfl hran)
  have hsingle := hprogress rfl _ List.mem_cons_self
  rw [record_of_ne hlist] at hsingle
  obtain ⟨v, e₂, hran⟩ := hsingle.single_of_quiescent hq
  obtain ⟨app, -, hprogress⟩ := hprog.ran _ _ (ran_since hs h₁ hnew h rfl hran)
  have hvalue := hprogress rfl (.ask (.value (.friendRequest k)
    (.userRead call call.list.requestSide))) (by
      rw [program_handle, handle_recordRead]
      simp [sideOf, shownSide_of_ne hlist])
  obtain ⟨v, e₃, hran⟩ := hvalue.value_of_quiescent hq
  obtain rfl : v = some d :=
    read_of_due hs h₁ hlist hnew (stays_of_reaches hs h₁ h hq hp) (.inr ⟨e₃, hran⟩)
  refine List.mem_flatMap.2 ⟨_, List.mem_reverse.2 (ran_since hs h₁ hnew h rfl hran), ?_⟩
  simp [deliveredBy, userOf, shown, hmatch, Loc.key]

end Open

/-! ## Whatever was delivered was in the index -/

/-- An entry that was announced to the call was written, and it is there unless the requests with
the peer were removed since. -/
theorem entry_of_announced {ok : FState → FLabel → Prop}
    (h : Reaches (step (program email)) ok s₁ s) {c' : Client}
    (hdue : Due s ⟨c', .entryAdded call, .childAdded k⟩) : ∃ peer,
      Written s.log (.userFriendRequest call.client.uid peer k) ∧
        (Loc.userFriendRequest call.client.uid peer k ∈ s.tree ∨
          RemovedWith (since s₁ s) call.client.uid peer) := by
  induction h with
  | refl => exact absurd hdue (not_due_of_new hs h₁ hnew rfl)
  | @tail t u l ht hl hstep ih =>
    have hs' := transition_of_step hstep
    have htraced := traced_since hs h₁ ht
    have hsuffix := log_suffix ht
    have entries : ∀ {c' p}, Issued (program email) anyApp t.log c'
        (.ask (.childAdded p (.entryAdded call))) →
        ∃ peer, p = friendRequestsWith call.client.uid peer := by
      intro c' p hi
      obtain ⟨rfl, ⟨hfriends, -⟩ | ⟨-, hpeer⟩⟩ := htraced.entryAdded_issued hi
      · exact absurd hfriends hlist
      · exact hpeer
    rcases hdue.childAdded_cases hs' with hdue | ⟨i, p, ok', ha, rfl, hk⟩ |
      ⟨i, w, p, l₀, v, -, rfl, hop, ho, hkey⟩
    · obtain ⟨peer, hw, hmem | ⟨c'', hr⟩⟩ := ih hdue
      · refine ⟨peer, hw.mono hs'.log_mono, ?_⟩
        rcases mem_tree_step hmem hs' with hmem | ⟨i, w, p, hi, -, hop, hp, rfl⟩
        · exact .inl hmem
        · have hissued := htraced.origin.writes w (List.mem_of_getElem? hi)
          rw [hop] at hissued
          obtain ⟨rfl, -⟩ := Facts.removeIndex_issued hissued hp
          rw [since_cons hsuffix rfl, hop]
          exact .inr ⟨_, List.mem_cons_self⟩
      · obtain ⟨ev, -, hsince⟩ := since_step ht hs'
        rw [hsince]
        exact ⟨peer, hw.mono hs'.log_mono, .inr ⟨c'', List.mem_cons_of_mem _ hr⟩⟩
    · obtain ⟨peer, rfl⟩ := entries (htraced.origin.asks _ ha)
      obtain ⟨l, hl, hkey⟩ := Tree.mem_children.1 hk
      obtain rfl := childKey_friendRequestsWith.1 hkey
      have hw : Written t.log (.userFriendRequest call.client.uid peer k) :=
        htraced.origin.tree _ hl
      exact ⟨peer, hw.mono hs'.log_mono, .inl hl⟩
    · obtain ⟨peer, rfl⟩ := entries (htraced.origin.childObs _ ho)
      obtain rfl := childKey_friendRequestsWith.1 hkey
      rw [State.applied_tree, State.applied_log, hop]
      exact ⟨peer, ⟨_, _, List.mem_cons_self⟩, .inl (Tree.mem_update.2 (.inl rfl))⟩

/-- What was delivered shows a request that was sent, and whose entry is there unless the requests
with the peer were removed since. -/
theorem entry_of_delivered {ok : FState → FLabel → Prop}
    (h : Reaches (step (program email)) ok s₁ s) {x : String × Users}
    (hx : x ∈ delivered email call (since s₁ s)) : ∃ (peer : UID) (d : RequestDict),
      Sent s.log d.fromId d.toId x.1 ∧ call.list.shows email call.client.uid d ∧
      x.2 = call.list.entry (d.side call.list.requestSide) ∧
      Written s.log (.userFriendRequest call.client.uid peer x.1) ∧
      (Loc.userFriendRequest call.client.uid peer x.1 ∈ s.tree ∨
        RemovedWith (since s₁ s) call.client.uid peer) := by
  have htraced := traced_since hs h₁ h
  obtain ⟨ev, hev, hx⟩ := List.mem_flatMap.1 hx
  replace hev : ev ∈ s.log := by
    rw [← since_append (log_suffix h)]
    exact List.mem_append_left _ (List.mem_reverse.1 hev)
  unfold deliveredBy at hx
  split at hx
  swap
  · cases hx
  next c' call' side l v e =>
  split at hx
  swap
  · cases hx
  next hc =>
  subst hc
  obtain ⟨rfl, k, e', rfl, hran⟩ :=
    htraced.request_of_readSide hlist (Traced.userRead_of_reply (htraced.origin.log _ hev))
  obtain ⟨peer, hentry⟩ := entry_of_announced hs h₁ hlist hnew h (.inr ⟨e', hran⟩)
  obtain ⟨users, husers, rfl⟩ := List.mem_map.1 hx
  obtain ⟨user, huser, rfl⟩ := List.mem_map.1 husers
  cases v with
  | none => cases huser
  | some d =>
    obtain ⟨huser, hmatch⟩ := List.mem_filter.1 huser
    obtain rfl : user = d.side call'.list.requestSide := List.mem_singleton.1 huser
    obtain ⟨c'', cb, hi⟩ := issued_of_reply hs.initial (fun _ _ => rfl)
      (fun u hu => (traced_of_reaches hs hu).origin) (fun u hu => (traced_of_reaches hs hu).values)
      (h₁.trans (h.mono fun _ _ _ => trivial)) (.inr ⟨e, hev⟩)
    obtain ⟨hsent, hfrom⟩ := Traced.request_issued hi
    exact ⟨peer, d, ⟨c'', hfrom.symm, hsent⟩, ne_of_matchesQuery hmatch, rfl, hentry⟩

end Run

end FLChat.Friends
