import FLChat.Friends.Consent
import FLChat.Friends.RequestList

/-!
# How often a request is listed

A call observes the index of its user once. As long as no requests with a peer are removed, the
index announces the peer once, the entries with the peer are observed once, and each of them is
announced, read and delivered once. When the last request with a peer is removed and there is a new
one, the index announces the peer again and its entries are observed once more, so this count says
nothing about such a peer. Entries that were removed stay in the list.
-/

namespace FLChat.Friends

open Realtime

variable {email : UID → String} {G : Guard Loc Client Cb Unit App Action} {s₀ s₁ s : FState}
  {c : Client} {call : Call} {peer : UID} {k : String} {d : RequestDict}

/-! ## Weights of one call -/

/-- Only what belongs to the call weighs anything. -/
structure Concerns (call : Call) (W : Weight Loc Client Cb Unit Action) : Prop where
  write : ∀ w, W.write w = 0
  ask : ∀ c a, W.ask (c, a) ≠ 0 → c = call.client ∧ a.cb.call? = some call
  task : ∀ t, W.task t ≠ 0 → t.client = call.client ∧ t.cb.call? = some call
  obs : ∀ o, W.obs o ≠ 0 → o.client = call.client ∧ o.cb.call? = some call
  event : ∀ ev, W.event ev ≠ 0 → ∃ t e, ev = .ran t e ∧ t.cb.call? = some call

namespace Concerns

variable {W : Weight Loc Client Cb Unit Action}

/-- Other clients weigh nothing. -/
theorem ignores (hW : Concerns call W) (hc : c ≠ call.client) : W.Ignores c where
  write op cb := hW.write _
  ask a := by
    by_contra hne
    exact hc (hW.ask c a hne).1
  task cb input := by
    by_contra hne
    exact hc (hW.task _ hne).1
  obs p cb := by
    by_contra hne
    exact hc (hW.obs _ hne).1

/-- Before the call is opened there is nothing that weighs anything. -/
theorem total_of_new (hW : Concerns call W) (hs : CallsOpened s)
    (hnew : weigh (opens call) s.log = 0) : W.total s = 0 ∧ W.announced s = 0 := by
  have hpending : ∀ {c cb}, cb ∈ s.pending c → cb.call? = some call → False := by
    intro c cb hcb hcall
    have := hs.pending c cb hcb call hcall
    omega
  have htask : ∀ o ∈ s.childObs, ∀ k, W.child o k = 0 := by
    intro o ho k
    by_contra hne
    exact hpending (mem_pending.2 (.inr (.inr (.inr (.inl ⟨o.path, ho⟩))))) (hW.task _ hne).2
  constructor
  · have hwrites : weigh W.write s.writes = 0 := weigh_eq_zero fun w _ => hW.write w
    have hasks : weigh W.ask s.asks = 0 := weigh_eq_zero fun x hx => by
      by_contra hne
      exact hpending (mem_pending.2 (.inr (.inl ⟨x.2, hx, rfl⟩))) (hW.ask x.1 x.2 hne).2
    have htasks : weigh W.task s.tasks = 0 := weigh_eq_zero fun t ht => by
      by_contra hne
      exact hpending (mem_pending_of_task ht) (hW.task t hne).2
    have hobs : weigh W.obs s.childObs = 0 := weigh_eq_zero fun o ho => by
      by_contra hne
      exact hpending (mem_pending.2 (.inr (.inr (.inr (.inl ⟨o.path, ho⟩))))) (hW.obs o hne).2
    have hlog : weigh W.event s.log = 0 := weigh_eq_zero fun ev hev => by
      by_contra hne
      obtain ⟨t, e, rfl, hcall⟩ := hW.event ev hne
      have := hs.ran t e hev call hcall
      omega
    rw [Weight.total, hwrites, hasks, htasks, hobs, hlog]
  · exact weigh_eq_zero fun o ho => weigh_eq_zero fun k _ => htask o ho k

end Concerns

/-- Counts the observers of the index for the call. -/
def indexWeight (call : Call) : Weight Loc Client Cb Unit Action where
  ask
    | (c, .childAdded _ (.peerAdded call')) => if c = call.client ∧ call' = call then 1 else 0
    | _ => 0
  obs
    | ⟨c, _, .peerAdded call'⟩ => if c = call.client ∧ call' = call then 1 else 0
    | _ => 0

/-- Counts the observers of the entries with the peer, and what is under way to attach them. -/
def peerWeight (call : Call) (peer : UID) : Weight Loc Client Cb Unit Action where
  ask
    | (c, .childAdded p (.entryAdded call')) =>
      if c = call.client ∧ call' = call ∧ p = friendRequestsWith c.uid peer then 1 else 0
    | _ => 0
  task
    | ⟨c, .peerAdded call', .childAdded peer'⟩ =>
      if c = call.client ∧ call' = call ∧ peer' = peer then 1 else 0
    | _ => 0
  obs
    | ⟨c, p, .entryAdded call'⟩ =>
      if c = call.client ∧ call' = call ∧ p = friendRequestsWith c.uid peer then 1 else 0
    | _ => 0

/-- Counts what is under way for the request `k` of the call, and the replies with its user. -/
def requestWeight (call : Call) (k : String) : Weight Loc Client Cb Unit Action where
  ask
    | (c, .single (.friendRequest k') (.recordRead call')) =>
      if c = call.client ∧ call' = call ∧ k' = k then 1 else 0
    | (c, .value (.friendRequest k') (.userRead call' _)) =>
      if c = call.client ∧ call' = call ∧ k' = k then 1 else 0
    | _ => 0
  task
    | ⟨c, .entryAdded call', .childAdded k'⟩ =>
      if c = call.client ∧ call' = call ∧ k' = k then 1 else 0
    | ⟨c, .recordRead call', .value (.friendRequest k') _⟩ =>
      if c = call.client ∧ call' = call ∧ k' = k then 1 else 0
    | ⟨c, .userRead call' _, .value (.friendRequest k') _⟩ =>
      if c = call.client ∧ call' = call ∧ k' = k then 1 else 0
    | _ => 0
  event
    | .ran ⟨c, .userRead call' _, .value (.friendRequest k') _⟩ _ =>
      if c = call.client ∧ call' = call ∧ k' = k then 1 else 0
    | _ => 0

theorem indexWeight_concerns : Concerns call (indexWeight call) where
  write _ := rfl
  ask c a hne := by
    unfold indexWeight at hne
    simp only at hne
    split at hne
    · next he =>
      obtain ⟨⟨hc, rfl⟩, -⟩ := ite_ne_right_iff.1 hne
      cases he
      exact ⟨hc, rfl⟩
    · exact absurd rfl hne
  task t hne := absurd rfl hne
  obs o hne := by
    unfold indexWeight at hne
    simp only at hne
    split at hne
    · obtain ⟨⟨hc, rfl⟩, -⟩ := ite_ne_right_iff.1 hne
      exact ⟨hc, rfl⟩
    · exact absurd rfl hne
  event ev hne := absurd rfl hne

theorem peerWeight_concerns : Concerns call (peerWeight call k) where
  write _ := rfl
  ask c a hne := by
    unfold peerWeight at hne
    simp only at hne
    split at hne
    · next he =>
      obtain ⟨⟨hc, rfl, -⟩, -⟩ := ite_ne_right_iff.1 hne
      cases he
      exact ⟨hc, rfl⟩
    · exact absurd rfl hne
  task t hne := by
    unfold peerWeight at hne
    simp only at hne
    split at hne
    · obtain ⟨⟨hc, rfl, -⟩, -⟩ := ite_ne_right_iff.1 hne
      exact ⟨hc, rfl⟩
    · exact absurd rfl hne
  obs o hne := by
    unfold peerWeight at hne
    simp only at hne
    split at hne
    · obtain ⟨⟨hc, rfl, -⟩, -⟩ := ite_ne_right_iff.1 hne
      exact ⟨hc, rfl⟩
    · exact absurd rfl hne
  event ev hne := absurd rfl hne

theorem requestWeight_concerns : Concerns call (requestWeight call k) where
  write _ := rfl
  ask c a hne := by
    unfold requestWeight at hne
    simp only at hne
    split at hne
    · next he =>
      obtain ⟨⟨hc, rfl, -⟩, -⟩ := ite_ne_right_iff.1 hne
      cases he
      exact ⟨hc, rfl⟩
    · next he =>
      obtain ⟨⟨hc, rfl, -⟩, -⟩ := ite_ne_right_iff.1 hne
      cases he
      exact ⟨hc, rfl⟩
    · exact absurd rfl hne
  task t hne := by
    unfold requestWeight at hne
    simp only at hne
    split at hne
    · obtain ⟨⟨hc, rfl, -⟩, -⟩ := ite_ne_right_iff.1 hne
      exact ⟨hc, rfl⟩
    · obtain ⟨⟨hc, rfl, -⟩, -⟩ := ite_ne_right_iff.1 hne
      exact ⟨hc, rfl⟩
    · obtain ⟨⟨hc, rfl, -⟩, -⟩ := ite_ne_right_iff.1 hne
      exact ⟨hc, rfl⟩
    · exact absurd rfl hne
  obs o hne := absurd rfl hne
  event ev hne := by
    unfold requestWeight at hne
    simp only at hne
    split at hne
    · obtain ⟨⟨-, rfl, -⟩, -⟩ := ite_ne_right_iff.1 hne
      exact ⟨_, _, rfl, rfl⟩
    · exact absurd rfl hne

/-- Only the event with the record of the request weighs anything. -/
theorem requestWeight_value {call' : Call} {side : Side} {l : Loc} {v : Option (Val l)}
    (hne : (requestWeight call k).task ⟨c, .userRead call' side, .value l v⟩ ≠ 0) :
    c = call.client ∧ call' = call ∧ l = .friendRequest k := by
  cases l with
  | friendRequest k' =>
    obtain ⟨⟨hc, hcall, rfl⟩, -⟩ := ite_ne_right_iff.1 hne
    exact ⟨hc, hcall, rfl⟩
  | userFriendRequest | friends | userFriends => exact absurd rfl hne

theorem indexWeight_balances (hlist : call.list ≠ .friends) :
    Balances (program email) (indexWeight call) (opens call) s where
  press a e c app cmds hact := by
    cases pressed_of_act hact with
    | @search c list query =>
      have hfriends : (⟨c, .friends, query, e.key⟩ : Call) ≠ call := fun hc => hlist (by rw [← hc])
      have hclient : ∀ {list}, (⟨c, list, query, e.key⟩ : Call) = call → c = call.client :=
        fun hc => by rw [← hc]
      cases list with
      | friends => simp [searchList, getAllFrinds, indexWeight, opens, hfriends]
      | incoming | sent =>
        simp only [searchList, getUsersWhoSendRequestToFriends, getUsersWhomFriendRequestBeenSend,
          Weight.cmds_ask, Weight.cmds_nil, indexWeight, opens]
        exact if_congr ⟨And.right, fun hc => ⟨hclient hc, hc⟩⟩ rfl rfl
    | send | accept | select | load => rfl
  run t ht e := by
    obtain ⟨c, cb, input⟩ := t
    rw [program_handle]
    cases cb with
    | recordRead call' =>
      cases input with
      | value l v =>
        rw [handle_recordRead]
        cases sideOf c call'.list l v <;> rfl
      | acked | childAdded | stored | url => rfl
    | userRead call' side =>
      cases input with
      | value l v =>
        rw [handle_userRead]
        rfl
      | acked | childAdded | stored | url => rfl
    | requestSend | recipientAdded | userFriendAdded | recipientFriendAdded | removeOuter |
      removeInner | peerAdded | entryAdded => cases input <;> rfl
  write w hw ok := by
    have hack : weigh (indexWeight call).task (w.ack ok) = 0 := weigh_eq_zero fun _ _ => rfl
    rw [hack]
    rfl
  observe c p cb ha ok := by cases cb <;> rfl
  serve c a ha hne ok := by
    have hans : weigh (indexWeight call).task (s.answer c a ok) = 0 := weigh_eq_zero fun _ _ => rfl
    rw [hans]
    cases a with
    | childAdded p cb => exact absurd rfl (hne p cb)
    | value | single | putData | downloadURL => rfl

theorem peerWeight_balances (hlist : call.list ≠ .friends) :
    Balances (program email) (peerWeight call peer) (fun _ => 0) s where
  press a e c app cmds hact := by
    cases pressed_of_act hact with
    | @search c list query =>
      have hfriends : (⟨c, .friends, query, e.key⟩ : Call) ≠ call := fun hc => hlist (by rw [← hc])
      cases list with
      | friends => simp [searchList, getAllFrinds, peerWeight, hfriends]
      | incoming | sent => rfl
    | send | accept | select | load => rfl
  run t ht e := by
    obtain ⟨c, cb, input⟩ := t
    rw [program_handle]
    cases cb with
    | peerAdded call' =>
      cases input with
      | childAdded peer' => simp [handle, peerWeight, friendRequestsWith]
      | acked | value | stored | url => rfl
    | recordRead call' =>
      cases input with
      | value l v =>
        rw [handle_recordRead]
        cases sideOf c call'.list l v <;> rfl
      | acked | childAdded | stored | url => rfl
    | userRead call' side =>
      cases input with
      | value l v =>
        rw [handle_userRead]
        rfl
      | acked | childAdded | stored | url => rfl
    | requestSend | recipientAdded | userFriendAdded | recipientFriendAdded | removeOuter |
      removeInner | entryAdded => cases input <;> rfl
  write w hw ok := by
    have hack : weigh (peerWeight call peer).task (w.ack ok) = 0 := weigh_eq_zero fun t ht => by
      obtain ⟨cb, -, rfl⟩ := mem_ack.1 ht
      cases cb <;> rfl
    rw [hack]
    rfl
  observe c p cb ha ok := by cases cb <;> rfl
  serve c a ha hne ok := by
    cases a with
    | childAdded p cb => exact absurd rfl (hne p cb)
    | value l cb | single l cb => cases cb <;> rfl
    | putData p d cb | downloadURL p cb => cases cb <;> rfl

theorem requestWeight_balances (hf : Traced email G s) (hlist : call.list ≠ .friends) :
    Balances (program email) (requestWeight call k) (fun _ => 0) s where
  press a e c app cmds hact := by
    cases pressed_of_act hact with
    | @search c list query => cases list <;> rfl
    | send | accept | select | load => rfl
  run t ht e := by
    obtain ⟨c, cb, input⟩ := t
    rw [program_handle]
    cases cb with
    | entryAdded call' =>
      cases input with
      | childAdded k' =>
        by_cases hc : call' = call
        · subst hc
          simp [handle, record_of_ne hlist, requestWeight]
        · cases hrecord : call'.list.record k' <;> simp [handle, hrecord, requestWeight, hc]
      | acked | value | stored | url => rfl
    | recordRead call' =>
      cases input with
      | value l v =>
        rw [handle_recordRead]
        cases l with
        | friendRequest k' =>
          by_cases hc : call' = call
          · subst hc
            simp [sideOf, shownSide_of_ne hlist, requestWeight]
          · cases sideOf c call'.list (.friendRequest k') v <;> simp [requestWeight, hc]
        | friends k' => cases sideOf c call'.list (.friends k') v <;> rfl
        | userFriendRequest | userFriends => rfl
      | acked | childAdded | stored | url => rfl
    | userRead call' side =>
      cases input with
      | value l v =>
        rw [handle_userRead]
        cases l <;> simp [requestWeight]
      | acked | childAdded | stored | url => rfl
    | requestSend | recipientAdded | userFriendAdded | recipientFriendAdded | removeOuter |
      removeInner | peerAdded => cases input <;> rfl
  write w hw ok := by
    have hack : weigh (requestWeight call k).task (w.ack ok) = 0 := weigh_eq_zero fun t ht => by
      obtain ⟨cb, -, rfl⟩ := mem_ack.1 ht
      cases cb <;> rfl
    rw [hack]
    rfl
  observe c p cb ha ok := by cases cb <;> rfl
  serve c a ha hne ok := by
    have hi := hf.origin.asks _ ha
    cases a with
    | childAdded p cb => exact absurd rfl (hne p cb)
    | single l cb =>
      obtain ⟨call', rfl⟩ := Traced.recordRead_of_single hi
      cases l <;> simp [State.answer, requestWeight]
    | value l cb =>
      obtain ⟨call', side, rfl⟩ := Traced.userRead_of_value hi
      cases l <;> simp [State.answer, requestWeight]
    | putData p d cb | downloadURL p cb => cases cb <;> rfl

/-! ## When nothing is in flight -/

/-- No requests with the peer are removed from the index of `c` in this step. -/
def KeepsEntries (email : UID → String) (c : Client) (peer : UID) (s : FState) (l : FLabel) :
    Prop :=
  ∀ u, Transition (program email) s l u → ∀ ev, u.log = ev :: s.log →
    ¬ ∃ c', ev = .resolved c' (.remove (friendRequestsWith c.uid peer)) true

/-- Nothing that is removed in such a step takes an entry with the peer. -/
theorem KeepsEntries.not_covers (hf : Traced email G s) {i : ℕ} {w : Write Loc Client Cb}
    (hkeeps : KeepsEntries email c peer s (.commit i true)) (hw : s.writes[i]? = some w)
    (hstep : step (program email) s (.commit i true) = some (s.applied i w)) {p : Path}
    (hop : w.op = .remove p) : ¬ p <+: path (Loc.userFriendRequest c.uid peer k) := by
  intro hp
  have hi := hf.origin.writes w (List.mem_of_getElem? hw)
  rw [hop] at hi
  obtain ⟨rfl, -⟩ := Facts.removeIndex_issued hi hp
  exact hkeeps _ (transition_of_step hstep) _ rfl ⟨w.client, by rw [hop]⟩

/-- Until the end no requests with the peer are removed. -/
theorem keepsEntries_of_reaches {ok : FState → FLabel → Prop}
    (hkept : ¬ RemovedWith (since s₁ s) c.uid peer) (h : Reaches (step (program email)) ok s₁ s) :
    Reaches (step (program email)) (fun s l => ok s l ∧ KeepsEntries email c peer s l) s₁ s :=
  avoids_of_reaches (Q := fun ev => ∃ c', ev = .resolved c'
    (.remove (friendRequestsWith c.uid peer)) true) h fun ev hev hr => by
      obtain ⟨c', rfl⟩ := hr
      exact hkept ⟨c', hev⟩

theorem count_delivered (log : List FEvent) : ((delivered email call log).map Prod.fst).count k =
    weigh (fun ev => ((deliveredBy email call ev).map Prod.fst).count k) log := by
  rw [delivered, List.map_flatMap, List.count_flatMap, ← weigh_perm (List.reverse_perm log)]
  rfl

/-- An event delivers no more than it weighs. -/
theorem Traced.count_deliveredBy_le (hf : Traced email G s) (hlist : call.list ≠ .friends)
    {ev : FEvent} (hev : ev ∈ s.log) :
    ((deliveredBy email call ev).map Prod.fst).count k ≤ (requestWeight call k).event ev := by
  unfold deliveredBy
  split
  swap
  · exact Nat.zero_le _
  next c call' side l v e =>
  split
  swap
  · exact Nat.zero_le _
  next hc =>
  subst hc
  obtain ⟨-, k', e', rfl, hran⟩ :=
    hf.request_of_readSide hlist (userRead_of_reply (hf.origin.log _ hev))
  obtain ⟨rfl, -⟩ := hf.entry_of_announced hlist hran
  rcases userRead_cases email call' (userOf (.friendRequest k') v side) s.app with
    ⟨hshown, -⟩ | ⟨users, hshown, -⟩
  · rw [hshown]
    exact Nat.zero_le _
  · rw [hshown]
    by_cases hk : k' = k <;> simp [Loc.key, requestWeight, hk]

/-- A call is not opened before it is pressed. -/
theorem opens_eq_zero {ok : FState → FLabel → Prop} {list : FriendList} {query : String} {e : Env}
    (hs : Start s₀) (h₁ : Reaches (step (program email)) AnyStep s₀ s₁)
    (h : Reaches (step (program email)) ok s₁ s)
    (hev : .pressed (.search c list query) e ∈ since s₁ s) :
    weigh (opens ⟨c, list, query, e.key⟩) s₁.log = 0 := by
  have hone := opens_le_one (traced_since hs h₁ h).keys ⟨c, list, query, e.key⟩
  have hle := le_weigh (f := opens ⟨c, list, query, e.key⟩) hev
  rw [show opens ⟨c, list, query, e.key⟩ (.pressed (.search c list query) e) = 1 from if_pos rfl]
    at hle
  rw [← since_append (log_suffix h), weigh_append] at hone
  omega

section Run

variable (hs : Start s₀) (h₁ : Reaches (step (program email)) AnyStep s₀ s₁)
  (hlist : call.list ≠ .friends) (hnew : weigh (opens call) s₁.log = 0)
  (h : Reaches (step (program email)) (KeepsUp call.client) s₁ s)
include hs h₁ hlist hnew h

section Quiescent

variable (hq : s.Quiescent) {e : Env} (hid : e.key = call.id)
  (hev : .pressed (.search call.client call.list call.query) e ∈ since s₁ s)
include hq hid hev

/-- The call observes the index once. -/
theorem index_observed_once : weigh (indexWeight call).obs s.childObs = 1 := by
  have h₀ := indexWeight_concerns.total_of_new (callsOpened_of_reaches hs h₁) hnew
  have htotal := Balances.total_of_reaches (W := indexWeight call) (by rw [h₀.1, h₀.2, hnew])
    (fun t _ => indexWeight_balances hlist)
    (fun t i w _ _ _ _ => applied_of_kept (fun _ _ => rfl) fun p _ o _ k _ hne => absurd rfl hne)
    (fun t c hc => ⟨indexWeight_concerns.ignores hc, rfl⟩) h
  have hann : (indexWeight call).announced s = 0 :=
    weigh_eq_zero fun o _ => weigh_eq_zero fun _ _ => rfl
  have hlog : weigh (indexWeight call).event s.log = 0 := weigh_eq_zero fun _ _ => rfl
  have hfresh := (traced_since hs h₁ h).keys
  have hone := opens_le_one hfresh call
  have hmem : .pressed (.search call.client call.list call.query) e ∈ s.log := by
    rw [← since_append (log_suffix h)]
    exact List.mem_append_left _ hev
  have hle := le_weigh (f := opens call) hmem
  have hopens : opens call (.pressed (.search call.client call.list call.query) e) = 1 := by
    rw [opens, hid]
    exact if_pos rfl
  rw [Weight.total_of_quiescent _ hq, hlog, hann] at htotal
  omega

/-- The index announces a peer with whom there is an entry once. -/
theorem peerWeight_announced (hmem : Loc.userFriendRequest call.client.uid peer k ∈ s.tree) :
    (peerWeight call peer).announced s = 1 := by
  have htraced := traced_since hs h₁ h
  have hone := index_observed_once hs h₁ hlist hnew h hq hid hev
  have hin : peer ∈ s.tree.children (friendRequestsOf call.client.uid) :=
    Tree.mem_children.2 ⟨_, hmem, childKey_friendRequestsOf.2 ⟨_, rfl⟩⟩
  rw [announced_of_obs (V := indexWeight call) (n := 1) fun o ho => ?_, hone]
  obtain ⟨c, p, cb⟩ := o
  have hi : Issued (program email) anyApp s.log c (.ask (.childAdded p cb)) :=
    htraced.origin.childObs _ ho
  cases cb with
  | peerAdded call' =>
    by_cases hc : call' = call
    · subst hc
      obtain ⟨rfl, rfl⟩ := Traced.index_of_peerAdded hi
      rw [weigh_child_eq (k := peer) fun k' => by simp [Weight.child, peerWeight], if_pos hin]
      simp [indexWeight]
    · rw [weigh_eq_zero fun k' _ => by simp [Weight.child, peerWeight, hc]]
      simp [indexWeight, hc]
  | requestSend | recipientAdded | userFriendAdded | recipientFriendAdded | removeOuter |
    removeInner | entryAdded | recordRead | userRead =>
    exact weigh_eq_zero fun _ _ => rfl

variable (hkept : ¬ RemovedWith (since s₁ s) call.client.uid peer)
include hkept

/-- The entries with a peer whose requests are not removed are observed once. -/
theorem peer_observed_once (hmem : Loc.userFriendRequest call.client.uid peer k ∈ s.tree) :
    weigh (peerWeight call peer).obs s.childObs = 1 := by
  have h₀ := (peerWeight_concerns (k := peer)).total_of_new (callsOpened_of_reaches hs h₁) hnew
  have htotal := Balances.total_of_reaches (W := peerWeight call peer)
    (by rw [h₀.1, h₀.2, weigh_eq_zero fun _ _ => rfl]) (fun t _ => peerWeight_balances hlist)
    (fun t i w ht hl hw hstep => applied_of_kept (fun t' ht' => ?_) fun p hop o ho k' hk' hne => ?_)
    (fun t c hc => ⟨peerWeight_concerns.ignores hc.1, rfl⟩)
    (keepsEntries_of_reaches hkept h)
  · have hann := peerWeight_announced hs h₁ hlist hnew h hq hid hev hmem
    have hlog : weigh (peerWeight call peer).event s.log = 0 := weigh_eq_zero fun _ _ => rfl
    have hsrc : weigh (fun _ : FEvent => 0) s.log = 0 := weigh_eq_zero fun _ _ => rfl
    rw [Weight.total_of_quiescent _ hq, hlog, hann, hsrc] at htotal
    omega
  · obtain ⟨⟨co, lo, cbo⟩, -, -, rfl⟩ := mem_valueEvents.1 ht'
    cases cbo <;> rfl
  · have htraced := traced_since hs h₁ ht
    obtain ⟨co, po, cbo⟩ := o
    have hi : Issued (program email) anyApp t.log co (.ask (.childAdded po cbo)) :=
      htraced.origin.childObs _ ho
    cases cbo with
    | peerAdded call' =>
      obtain ⟨⟨rfl, rfl, rfl⟩, -⟩ := ite_ne_right_iff.1 hne
      obtain ⟨-, rfl⟩ := Traced.index_of_peerAdded hi
      obtain ⟨l, hmem, hkey⟩ := Tree.mem_children.1 hk'
      obtain ⟨k'', rfl⟩ := childKey_friendRequestsOf.1 hkey
      have hnot := hl.2.not_covers (k := k'') htraced hw hstep hop
      exact Tree.mem_children.2 ⟨_, Tree.mem_remove.2 ⟨hmem, hnot⟩, hkey⟩
    | requestSend | recipientAdded | userFriendAdded | recipientFriendAdded | removeOuter |
      removeInner | entryAdded | recordRead | userRead => exact absurd rfl hne

/-- The entries with such a peer announce a pending request once. -/
theorem requestWeight_announced (hp : PendingRequest s call.client.uid peer k d) :
    (requestWeight call k).announced s = 1 := by
  have htraced := traced_since hs h₁ h
  have hone := peer_observed_once hs h₁ hlist hnew h hq hid hev hkept hp.entry
  have hin : k ∈ s.tree.children (friendRequestsWith call.client.uid peer) :=
    Tree.mem_children.2 ⟨_, hp.entry, childKey_friendRequestsWith.2 rfl⟩
  rw [announced_of_obs (V := peerWeight call peer) (n := 1) fun o ho => ?_, hone]
  obtain ⟨c, p, cb⟩ := o
  have hi : Issued (program email) anyApp s.log c (.ask (.childAdded p cb)) :=
    htraced.origin.childObs _ ho
  cases cb with
  | entryAdded call' =>
    by_cases hc : call' = call
    · subst hc
      obtain ⟨rfl, ⟨hfriends, -⟩ | ⟨-, peer', rfl⟩⟩ := htraced.entryAdded_issued hi
      · exact absurd hfriends hlist
      by_cases hpeer : peer' = peer
      · subst hpeer
        rw [weigh_child_eq (k := k) fun k' => by simp [Weight.child, requestWeight], if_pos hin]
        simp [peerWeight]
      · have hout : k ∉ s.tree.children (friendRequestsWith call'.client.uid peer') := by
          intro hin
          obtain ⟨l, hl, hkey⟩ := Tree.mem_children.1 hin
          obtain rfl := childKey_friendRequestsWith.1 hkey
          exact hpeer (htraced.peer_unique (htraced.origin.tree _ hl)
            (htraced.origin.tree _ hp.entry))
        rw [weigh_child_eq (k := k) fun k' => by simp [Weight.child, requestWeight], if_neg hout]
        simp [peerWeight, friendRequestsWith, hpeer]
    · rw [weigh_eq_zero fun k' _ => by simp [Weight.child, requestWeight, hc]]
      simp [peerWeight, hc]
  | requestSend | recipientAdded | userFriendAdded | recipientFriendAdded | removeOuter |
    removeInner | peerAdded | recordRead | userRead =>
    exact weigh_eq_zero fun _ _ => rfl

/-- A pending request with a peer whose requests are not removed is read once. -/
theorem request_read_once (hp : PendingRequest s call.client.uid peer k d) :
    weigh (requestWeight call k).event s.log = 1 := by
  have h₀ := (requestWeight_concerns (k := k)).total_of_new (callsOpened_of_reaches hs h₁) hnew
  have htotal := Balances.total_of_reaches (W := requestWeight call k)
    (by rw [h₀.1, h₀.2, weigh_eq_zero fun _ _ => rfl])
    (fun t ht => requestWeight_balances (traced_since hs h₁ ht) hlist)
    (fun t i w ht hl hw hstep => applied_of_kept (fun t' ht' => ?_) fun p hop o ho k' hk' hne => ?_)
    (fun t c hc => ⟨requestWeight_concerns.ignores hc.1.1, rfl⟩)
    (keepsEntries_of_reaches hkept (stays_of_reaches hs h₁ h hq hp))
  · have hann := requestWeight_announced hs h₁ hlist hnew h hq hid hev hkept hp
    have hobs : weigh (requestWeight call k).obs s.childObs = 0 := weigh_eq_zero fun _ _ => rfl
    have hsrc : weigh (fun _ : FEvent => 0) s.log = 0 := weigh_eq_zero fun _ _ => rfl
    rw [Weight.total_of_quiescent _ hq, hobs, hann, hsrc] at htotal
    omega
  · have htraced := traced_since hs h₁ ht
    obtain ⟨⟨co, lo, cbo⟩, ho, htouch, rfl⟩ := mem_valueEvents.1 ht'
    have hi : Issued (program email) anyApp t.log co (.ask (.value lo cbo)) :=
      htraced.origin.valueObs _ ho
    obtain ⟨call', side, rfl⟩ := Traced.userRead_of_value hi
    by_contra hne
    obtain ⟨rfl, rfl, rfl⟩ := requestWeight_value hne
    -- the write keeps the record, so it does not touch it
    obtain ⟨-, hwritten⟩ := hl.1.2.1.written_of_readSide htraced hlist (Traced.userRead_issued hi)
    have hrecord := (hl.1.2.2 _ hstep).record (hwritten.mono (transition_of_step hstep).log_mono)
    rw [not_touches_of_lookup (settled_since hs h₁ ht) hwritten (List.mem_of_getElem? hw) hrecord]
      at htouch
    cases htouch
  · have htraced := traced_since hs h₁ ht
    obtain ⟨co, po, cbo⟩ := o
    have hi : Issued (program email) anyApp t.log co (.ask (.childAdded po cbo)) :=
      htraced.origin.childObs _ ho
    cases cbo with
    | entryAdded call' =>
      obtain ⟨⟨rfl, rfl, rfl⟩, -⟩ := ite_ne_right_iff.1 hne
      obtain ⟨-, ⟨hfriends, -⟩ | ⟨-, peer', rfl⟩⟩ := htraced.entryAdded_issued hi
      · exact absurd hfriends hlist
      obtain ⟨l, hmem, hkey⟩ := Tree.mem_children.1 hk'
      obtain rfl := childKey_friendRequestsWith.1 hkey
      obtain rfl := hl.1.2.1.unique peer' (htraced.origin.tree _ hmem)
      have hnot := hl.2.not_covers (k := k') htraced hw hstep hop
      exact Tree.mem_children.2 ⟨_, Tree.mem_remove.2 ⟨hmem, hnot⟩, hkey⟩
    | requestSend | recipientAdded | userFriendAdded | recipientFriendAdded | removeOuter |
      removeInner | peerAdded | recordRead | userRead => exact absurd rfl hne

/-- The key of such a request is delivered at most once. -/
theorem count_delivered_le_one (hp : PendingRequest s call.client.uid peer k d) :
    ((delivered email call (since s₁ s)).map Prod.fst).count k ≤ 1 := by
  have htraced := traced_since hs h₁ h
  have hread := request_read_once hs h₁ hlist hnew h hq hid hev hkept hp
  rw [← since_append (log_suffix h), weigh_append] at hread
  have hle : weigh (fun ev => ((deliveredBy email call ev).map Prod.fst).count k) (since s₁ s) ≤
      weigh (requestWeight call k).event (since s₁ s) := weigh_le_weigh fun ev hmem => by
    refine htraced.count_deliveredBy_le hlist ?_
    rw [← since_append (log_suffix h)]
    exact List.mem_append_left _ hmem
  rw [count_delivered]
  omega

end Quiescent

end Run

/-! ## The list and the database -/

/-- With the e-mails of its two accounts in it, a pending request is shown by the list that is about
it. -/
theorem Traced.shows_iff (hf : Traced email G s) (hlist : call.list ≠ .friends)
    (hp : PendingRequest s call.client.uid peer k d) (hfrom : Genuine email d.fromId d.fromIdUser)
    (hto : Genuine email d.toId d.toIdUser) :
    call.list.shows email call.client.uid d ↔ call.list.concerns call.client.uid d := by
  have hne : email d.toId ≠ email d.fromId := by
    rw [← hto.2]
    exact hf.toIdUser_ne hp.record
  have hsides : d.fromId = call.client.uid ∨ d.toId = call.client.uid := by
    rcases hf.between_unique (.inl (hf.sentBy_of_lookup hp.record))
      (hf.between_of_written (hf.origin.tree _ hp.entry)) with ⟨hu, -⟩ | ⟨-, hu⟩
    · exact .inl hu
    · exact .inr hu
  cases hcase : call.list with
  | friends => exact absurd hcase hlist
  | incoming =>
    change d.fromIdUser.email ≠ email call.client.uid ↔ d.toId = call.client.uid
    rw [hfrom.2]
    refine ⟨fun h => hsides.resolve_left fun hu => h (congrArg email hu), fun hu h => hne ?_⟩
    rw [h, hu]
  | sent =>
    change d.toIdUser.email ≠ email call.client.uid ↔ d.fromId = call.client.uid
    rw [hto.2]
    refine ⟨fun h => hsides.resolve_right fun hu => h (congrArg email hu), fun hu h => hne ?_⟩
    rw [h, hu]

/-- What a call of a list of requests shows of the database, when nothing is in flight. -/
structure FollowsRequests (email : UID → String) (call : Call) (s₁ s : FState) : Prop where
  /-- The list is what was delivered. -/
  shown : s.app.arrayUsers call = (delivered email call (since s₁ s)).map Prod.snd
  /-- Whatever is pending is listed. -/
  listed : ∀ peer k d, PendingRequest s call.client.uid peer k d →
    call.list.shows email call.client.uid d →
    (k, call.list.entry (d.side call.list.requestSide)) ∈ delivered email call (since s₁ s)
  /-- It is listed once, as long as no requests with the peer are removed. -/
  once : ∀ peer k d, PendingRequest s call.client.uid peer k d →
    call.list.shows email call.client.uid d → ¬ RemovedWith (since s₁ s) call.client.uid peer →
    ((delivered email call (since s₁ s)).map Prod.fst).count k = 1
  /-- Whatever is listed was sent, and is in the index unless requests with the peer were removed
  since. -/
  only : ∀ x ∈ delivered email call (since s₁ s), ∃ (peer : UID) (d : RequestDict),
    Sent s.log d.fromId d.toId x.1 ∧ call.list.shows email call.client.uid d ∧
    x.2 = call.list.entry (d.side call.list.requestSide) ∧
    Written s.log (.userFriendRequest call.client.uid peer x.1) ∧
    (Loc.userFriendRequest call.client.uid peer x.1 ∈ s.tree ∨
      RemovedWith (since s₁ s) call.client.uid peer)
  /-- A request with the e-mails of its two accounts is shown by the list that is about it. -/
  shows_iff : ∀ peer k d, PendingRequest s call.client.uid peer k d →
    Genuine email d.fromId d.fromIdUser → Genuine email d.toId d.toIdUser →
    (call.list.shows email call.client.uid d ↔ call.list.concerns call.client.uid d)

/-- A live list of requests follows what is added. -/
theorem follows_requests {list : FriendList} {e : Env} (hs : Start s₀)
    (h₁ : Reaches (step (program email)) AnyStep s₀ s₁)
    (h : Reaches (step (program email)) (KeepsUp c) s₁ s) (hq : s.Quiescent)
    (hlist : list ≠ .friends) (hev : .pressed (.search c list "") e ∈ since s₁ s) :
    FollowsRequests email ⟨c, list, "", e.key⟩ s₁ s := by
  have htraced := traced_since hs h₁ h
  have hnew := opens_eq_zero hs h₁ h hev
  have hid : e.key = (⟨c, list, "", e.key⟩ : Call).id := rfl
  have hmatch : ∀ {d}, list.shows email c.uid d →
      matchesQuery "" (d.side list.requestSide).email (email c.uid) = true := fun hshows => by
    rw [matchesQuery, if_pos rfl]
    exact decide_eq_true hshows
  have hlisted : ∀ {peer k d}, PendingRequest s c.uid peer k d → list.shows email c.uid d →
      (k, list.entry (d.side list.requestSide)) ∈
        delivered email ⟨c, list, "", e.key⟩ (since s₁ s) :=
    fun hp hshows => delivered_of_pending hs h₁ hlist hnew h hq hid hev hp (hmatch hshows)
  refine ⟨?_, fun peer k d hp hshows => hlisted hp hshows, fun peer k d hp hshows hkept => ?_,
    fun x hx => entry_of_delivered hs h₁ hlist hnew h hx,
    fun peer k d hp hfrom hto => htraced.shows_iff hlist hp hfrom hto⟩
  · refine arrayUsers_of_delivered (fun t hl => hl rfl) ?_ h
    by_contra hne
    have := (callsOpened_of_reaches hs h₁).arrayUsers _ hne
    omega
  · have hpos := List.count_pos_iff.2 (List.mem_map_of_mem (f := Prod.fst) (hlisted hp hshows))
    exact le_antisymm (count_delivered_le_one hs h₁ hlist hnew h hq hid hev hkept hp) hpos

theorem Succeeds.keepsUp {t : FState} {l : FLabel} (h : Succeeds t l) : KeepsUp c t l := by
  cases l with
  | die => exact h.elim
  | commit i ok => exact .inl h
  | press | run | serve => trivial

/-- The list of Bob shows the request of Alice. -/
theorem follows_requests_asked :
    FollowsRequests mail ⟨bob, .incoming, "", "c"⟩ start asked ∧
      asked.app.arrayUsers ⟨bob, .incoming, "", "c"⟩ = [(found "alice").users] := by
  have hev : .pressed (.search bob .incoming "") ⟨"c", 4⟩ ∈ since start asked :=
    List.mem_of_getElem? (i := 9) rfl
  exact ⟨follows_requests start_start .refl (asked_reached.mono fun _ _ hl => hl.keepsUp)
    ⟨rfl, rfl, rfl⟩ (by decide) hev, rfl⟩

/-- The list has one entry for each pending request that it is about, and no other. -/
def Mirrors (call : Call) (s : FState) : Prop :=
  ∃ ks : List String, ks.Nodup ∧
    (∀ k, k ∈ ks ↔ ∃ peer d, PendingRequest s call.client.uid peer k d ∧
      call.list.concerns call.client.uid d) ∧
    ((s.app.arrayUsers call).map some).Perm (ks.map fun k =>
      (s.tree.lookup (.friendRequest k)).map fun d =>
        call.list.entry (d.side call.list.requestSide))

/-- Bob accepts Alice, and his live list goes on to show her request. -/
theorem not_mirrors : ¬ ∀ (s₀ s₁ s : FState) (c : Client) (list : FriendList) (e : Env), Start s₀ →
    Reaches (step (program mail)) AnyStep s₀ s₁ →
    Reaches (step (program mail)) (KeepsUp c) s₁ s → s.Quiescent → list ≠ .friends →
    .pressed (.search c list "") e ∈ since s₁ s → Mirrors ⟨c, list, "", e.key⟩ s := by
  intro hmirrors
  have hrun : Reaches (step (program mail)) (Loads mail) start consented :=
    .of_exec (Option.some_get _).symm
  obtain ⟨ks, -, hks, hperm⟩ := hmirrors start start consented bob .incoming ⟨"c", 4⟩ start_start
    .refl (hrun.mono fun _ _ hl => hl.succeeds.keepsUp) ⟨rfl, rfl, rfl⟩ (by decide)
    (List.mem_of_getElem? (i := 23) rfl)
  have hshown : (consented.app.arrayUsers ⟨bob, .incoming, "", "c"⟩).length = 1 := rfl
  have hnone : ∀ l ∈ consented.tree.keys, (path l).head? ≠ some "user_friend_request" := by
    decide +kernel
  have hlength := hperm.length_eq
  rw [List.length_map, List.length_map, hshown] at hlength
  cases ks with
  | nil => cases hlength
  | cons k ks =>
    obtain ⟨peer, d, hp, -⟩ := (hks k).1 List.mem_cons_self
    exact hnone _ hp.entry rfl

end FLChat.Friends
