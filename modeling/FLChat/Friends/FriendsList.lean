import FLChat.Friends.Calls
import FLChat.Friends.Entries

/-!
# The list of friends

A call of `getAllFrinds` observes the index of its user, reads the record of each entry twice and
appends the side of the other user. Both reads find the record, so every entry is announced and
delivered once (`deliveries_perm`). When nothing is in flight, the list therefore holds the other
user of every friendship, and the lists of two users name each other equally often (`friends_list`).
-/

namespace FLChat.Friends

open Realtime

variable {email : UID → String} {G : Guard Loc Client Cb Unit App Action} {s₀ s s' t : FState}
  {c : Client} {call : Call} {u v : UID} {k : String}

/-! ## Every entry is delivered once -/

/-- Counts what is under way for the entry `k` of the call, and its deliveries. -/
def entryWeight (call : Call) (k : String) : Weight Loc Client Cb Unit Action where
  ask
    | (_, .single (.friends k') (.recordRead call')) => if call' = call ∧ k' = k then 1 else 0
    | (_, .value (.friends k') (.userRead call' _)) => if call' = call ∧ k' = k then 1 else 0
    | _ => 0
  task
    | ⟨_, .entryAdded call', .childAdded k'⟩ => if call' = call ∧ k' = k then 1 else 0
    | ⟨_, .recordRead call', .value (.friends k') _⟩ => if call' = call ∧ k' = k then 1 else 0
    | ⟨_, .userRead call' _, .value (.friends k') _⟩ => if call' = call ∧ k' = k then 1 else 0
    | _ => 0
  event
    | .ran ⟨_, .userRead call' _, .value (.friends k') _⟩ _ => if call' = call ∧ k' = k then 1 else 0
    | _ => 0

/-- Counts the observers of the index for the call. -/
def observerWeight (call : Call) : Weight Loc Client Cb Unit Action where
  ask
    | (_, .childAdded _ (.entryAdded call')) => if call' = call then 1 else 0
    | _ => 0
  obs
    | ⟨_, _, .entryAdded call'⟩ => if call' = call then 1 else 0
    | _ => 0

/-- The press that makes the call. -/
def makesCall (call : Call) : FEvent → ℕ
  | .pressed (.search c .friends query) e => if ⟨c, .friends, query, e.key⟩ = call then 1 else 0
  | _ => 0

theorem observerWeight_balanced (hlist : call.list = .friends) (hf : Facts email G s) :
    Balanced (program email) (observerWeight call) (makesCall call) s where
  press a e c app cmds hact := by
    cases pressed_of_act hact with
    | @search c list query =>
      cases list with
      | friends => simp [searchList, getAllFrinds, observerWeight, makesCall]
      | incoming | sent => rfl
    | send | accept | select | load => rfl
  run t ht e := by
    obtain ⟨c, cb, input⟩ := t
    simp only [program_handle]
    cases cb with
    | peerAdded call' =>
      cases input with
      | childAdded peer =>
        -- only the lists of requests observe more indexes
        have hne : call' ≠ call := by
          rintro rfl
          obtain ⟨p, -, -, -, hi, -⟩ := hf.origin.tasks _ ht
          exact (Traced.list_of_peerAdded hi).2 hlist
        simp [handle, observerWeight, makesCall, hne]
      | acked | value | stored | url => rfl
    | recordRead call' =>
      cases input with
      | value l v => cases l <;> simp [handle, observerWeight, makesCall, Weight.cmds_eq_zero]
      | acked | childAdded | stored | url => rfl
    | userRead call' side =>
      cases input with
      | value l v => cases l <;> rfl
      | acked | childAdded | stored | url => rfl
    | requestSend | recipientAdded | userFriendAdded | recipientFriendAdded | removeOuter |
      removeInner | entryAdded => cases input <;> rfl
  write w hw ok := by
    have hack : weigh (observerWeight call).task (w.ack ok) = 0 := weigh_eq_zero fun _ _ => rfl
    rw [hack]
    rfl
  raise w hw t ht := rfl
  remove w hw p hp o ho := .inl fun _ => rfl
  observe c p cb ha ok := by cases cb <;> simp [observerWeight, makesCall]
  serve c a ha hne ok := by
    have hans : weigh (observerWeight call).task (s.answer c a ok) = 0 :=
      weigh_eq_zero fun _ _ => rfl
    rw [hans]
    cases a with
    | childAdded p cb => exact absurd rfl (hne p cb)
    | value | single | putData | downloadURL => rfl

theorem makesCall_le_one (h : KeysFresh s) (call : Call) : weigh (makesCall call) s.log ≤ 1 := by
  refine weigh_le_one (k := call.id) h.nodup (fun ev _ => ?_) fun ev _ hne => ?_
  · unfold makesCall
    split
    · split <;> simp
    · simp
  · unfold makesCall at hne
    split at hne
    · split at hne
      · next hc => rw [← hc]; rfl
      · exact absurd rfl hne
    · exact absurd rfl hne

section Calls

variable (hs : Start s₀) (h : Reaches (step (program email)) Succeeds s₀ s)
  (hlist : call.list = .friends)
include hs h hlist

/-- When nothing is in flight, a call that was made has one observer. -/
theorem observers_eq_one (hq : s.Quiescent) {e : Env} (hid : e.key = call.id)
    (hev : .pressed (.search call.client .friends call.query) e ∈ s.log) :
    weigh (observerWeight call).obs s.childObs = 1 := by
  have htotal := total_of_reaches hs.initial (fun _ _ hd => hd) (fun t ht =>
    observerWeight_balanced hlist (facts_of_reaches hs (fun _ _ => Succeeds.proceeds) ht)) h
  have hann : (observerWeight call).announced s = 0 :=
    weigh_eq_zero fun o _ => weigh_eq_zero fun _ _ => rfl
  have hone := makesCall_le_one (.of_reaches hs.initial h) call
  have hmake := le_weigh (f := makesCall call) hev
  have hcall : makesCall call (.pressed (.search call.client .friends call.query) e) = 1 := by
    obtain ⟨c, list, query, id⟩ := call
    obtain rfl : list = .friends := hlist
    simpa [makesCall] using hid
  have hlog : weigh (observerWeight call).event s.log = 0 := weigh_eq_zero fun _ _ => rfl
  rw [Weight.total_of_quiescent _ hq, hlog, hann] at htotal
  omega

theorem entryWeight_balanced (k : String) :
    Balanced (program email) (entryWeight call k) (fun _ => 0) s where
  press a e c app cmds hact := by
    cases pressed_of_act hact with
    | @search c list query => cases list <;> rfl
    | send | accept | select | load => rfl
  run t ht e := by
    obtain ⟨c, cb, input⟩ := t
    simp only [program_handle]
    cases cb with
    | entryAdded call' =>
      cases input with
      | childAdded k' =>
        by_cases hc : call' = call
        · subst hc
          simp [handle, hlist, FriendList.record, entryWeight]
        · cases hrecord : call'.list.record k' <;> simp [handle, hrecord, entryWeight, hc]
      | acked | value | stored | url => rfl
    | recordRead call' =>
      cases input with
      | value l v =>
        cases l with
        | friends k' =>
          by_cases hc : call' = call
          · -- the record is there, so the read goes on
            subst hc
            obtain ⟨d, rfl, -⟩ := friend_of_recordRead hs h (.inl ht)
            simp [handle, hlist, shownSide, entryWeight]
          · cases hside : shownSide c call'.list v <;> simp [handle, hside, entryWeight, hc]
        | friendRequest k' =>
          cases hside : shownSide c call'.list none <;> simp [handle, hside, entryWeight]
        | userFriendRequest | userFriends => rfl
      | acked | childAdded | stored | url => rfl
    | userRead call' side =>
      cases input with
      | value l v => cases l <;> simp [handle, entryWeight]
      | acked | childAdded | stored | url => rfl
    | requestSend | recipientAdded | userFriendAdded | recipientFriendAdded | removeOuter |
      removeInner | peerAdded => cases input <;> rfl
  write w hw ok := by
    have hack : weigh (entryWeight call k).task (w.ack ok) = 0 := weigh_eq_zero fun t ht => by
      obtain ⟨cb, -, rfl⟩ := mem_ack.1 ht
      cases cb <;> rfl
    rw [hack]
    rfl
  raise w hw t ht := by
    obtain ⟨o, ho, htouch, rfl⟩ := mem_valueEvents.1 ht
    have hf := facts_of_reaches hs (fun _ _ => Succeeds.proceeds) h
    have hi := hf.origin.valueObs o ho
    obtain ⟨c, l, cb⟩ := o
    obtain ⟨call', side, rfl⟩ := Traced.userRead_of_value hi
    cases l with
    | friends k' =>
      -- nothing touches a record that is observed
      obtain ⟨-, -, -, d, hd, -⟩ := friend_of_side hs h (Traced.userRead_issued hi)
      have hrecord := hf.origin.tree _ (AList.lookup_isSome.1 (Option.isSome_of_eq_some hd))
      rw [not_touches_friends hs h hrecord hw] at htouch
      cases htouch
    | friendRequest | userFriendRequest | userFriends => rfl
  remove w hw p hp o ho := by
    have hf := facts_of_reaches hs (fun _ _ => Succeeds.proceeds) h
    have hi := hf.origin.writes w hw
    rw [hp] at hi
    obtain ⟨c, q, cb⟩ := o
    have ho : Issued (program email) anyApp s.log c (.ask (.childAdded q cb)) :=
      hf.origin.childObs _ ho
    cases cb with
    | entryAdded call' =>
      by_cases hc : call' = call
      · -- the observer is on an index of friends, where nothing is removed
        subst hc
        obtain ⟨-, ⟨-, rfl⟩ | ⟨hne, -⟩⟩ := hf.entryAdded_issued ho
        swap
        · exact absurd hlist hne
        refine .inr fun l hpl hql => ?_
        obtain ⟨k', rfl⟩ := userFriends_below.1 hql
        exact Facts.not_remove_friendship (l := .userFriends _ k') (v := (1 : ℕ)) hi rfl hpl
      · exact .inl fun k' => if_neg fun he => hc he.1
    | requestSend | recipientAdded | userFriendAdded | recipientFriendAdded | removeOuter |
      removeInner | peerAdded | recordRead | userRead => exact .inl fun _ => rfl
  observe c p cb ha ok := by cases cb <;> rfl
  serve c a ha hne ok := by
    have hf := facts_of_reaches hs (fun _ _ => Succeeds.proceeds) h
    have hi := hf.origin.asks _ ha
    cases a with
    | childAdded p cb => exact absurd rfl (hne p cb)
    | single l cb =>
      obtain ⟨call', rfl⟩ := Traced.recordRead_of_single hi
      cases l <;> simp [State.answer, entryWeight]
    | value l cb =>
      obtain ⟨call', side, rfl⟩ := Traced.userRead_of_value hi
      cases l <;> simp [State.answer, entryWeight]
    | putData p d cb => cases cb <;> rfl
    | downloadURL p cb => cases cb <;> rfl

end Calls

/-- What a reply of the call `call'` with the user adds to the list of `call`. -/
def shownTo (email : UID → String) (call call' : Call) (user : Option UserParams) : Option Users :=
  user.bind fun user =>
    if call' = call ∧ matchesQuery call.query user.email (email call.client.uid) = true
    then some user.users else none

/-- The entry that an event delivers to the call, with its key. -/
def deliveryOf (email : UID → String) (call : Call) : FEvent → Option (String × Users)
  | .ran ⟨_, .userRead call' side, .value (.friends k) v⟩ _ =>
    (shownTo email call call' (Option.map (FriendDict.side · side) v)).map fun users => (k, users)
  | _ => none

/-- What was delivered to the call, in this order. -/
def deliveries (email : UID → String) (call : Call) (log : List FEvent) : List (String × Users) :=
  log.reverse.filterMap (deliveryOf email call)

theorem deliveries_cons (email : UID → String) (call : Call) (ev : FEvent) (log : List FEvent) :
    deliveries email call (ev :: log) =
      deliveries email call log ++ (deliveryOf email call ev).toList := by
  unfold deliveries
  rw [List.reverse_cons, List.filterMap_append]
  cases h : deliveryOf email call ev <;> simp [h]

theorem arrayUsers_userRead (hlist : call.list = .friends) (call' : Call)
    (user : Option UserParams) (app : App) :
    (userRead email call' user app).arrayUsers call =
      app.arrayUsers call ++ (shownTo email call call' user).toList := by
  unfold userRead
  cases user with
  | none => simp [shownTo]
  | some user =>
    by_cases hc : call' = call
    · subst hc
      by_cases hmatch : matchesQuery call'.query user.email (email call'.client.uid) = true
      · simp [hmatch, App.deliver, hlist, shownTo]
      · simp [hmatch, shownTo]
    · have hc' : call ≠ call' := fun e => hc e.symm
      have hnone : shownTo email call call' (some user) = none := by simp [shownTo, hc]
      rw [hnone, Option.toList_none, List.append_nil]
      simp only
      split
      · simp [App.deliver, hc']
      · rfl

/-- A callback appends what its event delivers. -/
theorem arrayUsers_handle (hlist : call.list = .friends) {cb : Cb} {input : Input Loc} {e : Env}
    {app : App} (hrequest : ∀ side k v, cb = .userRead call side →
      input ≠ .value (.friendRequest k) v) :
    (handle email c cb input app).1.arrayUsers call = app.arrayUsers call ++
      ((deliveryOf email call (.ran ⟨c, cb, input⟩ e)).map Prod.snd).toList := by
  cases cb with
  | userRead call' side =>
    cases input with
    | value l v =>
      cases l with
      | friends k =>
        simp only [handle, deliveryOf, Option.map_map]
        rw [arrayUsers_userRead hlist]
        simp only [Function.comp_def, Option.map_id']
        rfl
      | friendRequest k =>
        have hc : call' ≠ call := by
          rintro rfl
          exact hrequest side k v rfl rfl
        simp only [handle, deliveryOf]
        rw [arrayUsers_userRead hlist]
        cases v <;> simp [shownTo, hc]
      | userFriendRequest | userFriends => simp [handle, deliveryOf]
    | acked | childAdded | stored | url => simp [handle, deliveryOf]
  | recordRead call' =>
    cases input with
    | value l v => cases l <;> simp [handle, deliveryOf]
    | acked | childAdded | stored | url => simp [handle, deliveryOf]
  | requestSend | recipientAdded | userFriendAdded | recipientFriendAdded | removeOuter |
    removeInner | peerAdded | entryAdded => cases input <;> simp [handle, deliveryOf, App.alert]

/-- The list of a call is what was delivered to it. -/
theorem arrayUsers_of_reaches (hs : Start s₀) (h : Reaches (step (program email)) Succeeds s₀ s)
    (hlist : call.list = .friends) :
    s.app.arrayUsers call = (deliveries email call s.log).map Prod.snd := by
  refine h.invariant_of_reached
    (I := fun s => s.app.arrayUsers call = (deliveries email call s.log).map Prod.snd) ?_
    fun {t l u} ht ih hl hstep => ?_
  · rw [hs.initial.log, hs.app.arrayUsers]
    rfl
  · have hf := facts_of_reaches hs (fun _ _ => Succeeds.proceeds) ht
    cases transition_of_step hstep with
    | press _ hact =>
      rw [State.pressed_app, State.pressed_log, deliveries_cons, arrayUsers_act hact, ih]
      simp [deliveryOf]
    | @run i e task app cmds _ htask hrun =>
      obtain ⟨c, cb, input⟩ := task
      have happ : (handle email c cb input t.app).1 = app := congrArg Prod.fst hrun
      rw [State.ran_app, State.ran_log, deliveries_cons, ← happ,
        arrayUsers_handle (e := e) hlist, ih, List.map_append]
      · cases deliveryOf email call (.ran ⟨c, cb, input⟩ e) <;> rfl
      · rintro side k v rfl rfl
        cases Traced.userRead_of_reply (hf.origin.tasks _ (List.mem_of_getElem? htask)) with
        | friendRequest _ hside =>
          rw [hlist] at hside
          cases hside
    | apply | reject | serve =>
      first
        | rw [State.applied_app, State.applied_log, deliveries_cons, ih]
        | rw [State.rejected_app, State.rejected_log, deliveries_cons, ih]
        | rw [State.served_app, State.served_log, deliveries_cons, ih]
      simp [deliveryOf]
    | die => exact hl.elim

/-! ## When nothing is in flight -/

/-- The user of a friends record that a user sees. -/
def FriendDict.other (d : FriendDict) (uid : UID) : UserParams :=
  d.side (if uid = d.fromId then .toIdUser else .fromIdUser)

/-- What the list of `uid` shows for the entry `k`. -/
def friendOf (tree : Realtime.Tree Loc) (uid : UID) (k : String) : Option Users :=
  (tree.lookup (Loc.friends k)).map fun d => (FriendDict.other d uid).users

/-- A record of two different accounts shows either of them the other one. -/
theorem GenuineFriends.other {d : FriendDict} (hd : GenuineFriends email d)
    (hu : u = d.fromId ∨ u = d.toId) :
    ∃ v, v ≠ u ∧ (d.fromId = u ∧ d.toId = v ∨ d.fromId = v ∧ d.toId = u) ∧
      Genuine email v (d.other u) := by
  rcases hu with rfl | rfl
  · refine ⟨d.toId, hd.ne.symm, .inl ⟨rfl, rfl⟩, ?_⟩
    rw [FriendDict.other, if_pos rfl]
    exact hd.toIdUser
  · refine ⟨d.fromId, hd.ne, .inr ⟨rfl, rfl⟩, ?_⟩
    rw [FriendDict.other, if_neg fun he => hd.ne he.symm]
    exact hd.fromIdUser

section Delivered

variable (hs : Start s₀) (h : Reaches (step (program email)) (Loads email) s₀ s)
include hs h

theorem friends_genuine {d : FriendDict} (hd : s.tree.lookup (.friends k) = some d) :
    GenuineFriends email d := by
  have hf := known_of_reaches hs h
  obtain ⟨c, hr⟩ := hf.values _ _ trivial hd
  obtain ⟨cb, hi⟩ := hf.origin.log _ hr
  exact friend_genuine hi

/-- An entry is about a friendship of its user with somebody else. -/
theorem friend_of_entry (hw : Written s.log (.userFriends u k)) :
    ∃ d v, s.tree.lookup (.friends k) = some d ∧ v ≠ u ∧
      (d.fromId = u ∧ d.toId = v ∨ d.fromId = v ∧ d.toId = u) ∧ Genuine email v (d.other u) := by
  have hrun := h.mono fun _ _ hl => hl.succeeds
  have hf := facts_of_reaches hs (fun _ _ => Succeeds.proceeds) hrun
  obtain ⟨d, hd⟩ := friends_of_entry hs hrun hw
  obtain ⟨c, f, hacc, hu⟩ := acceptedBy_of_entry hs hrun hw
  obtain ⟨hfrom, hto⟩ := hf.accepted_unique (hf.accepted_of_lookup hd) ⟨c, rfl, hacc⟩
  rw [← hfrom, ← hto] at hu
  obtain ⟨v, hv⟩ := (friends_genuine hs h hd).other hu.symm
  exact ⟨d, v, hd, hv⟩

/-- Every read of a user delivers the other user of its record. -/
theorem deliveryOf_ran (hemail : Function.Injective email) (hquery : call.query = "")
    {call' : Call} {side : Side} {w : Option FriendDict} {e : Env}
    (hev : .ran ⟨c, .userRead call' side, .value (.friends k) w⟩ e ∈ s.log) :
    ∃ users, friendOf s.tree call'.client.uid k = some users ∧
      deliveryOf email call (.ran ⟨c, .userRead call' side, .value (.friends k) w⟩ e) =
        if call' = call then some (k, users) else none := by
  obtain ⟨hc, -, hw, d, rfl, hd, rfl⟩ :=
    friend_of_userRead hs (h.mono fun _ _ hl => hl.succeeds) (.inr ⟨e, hev⟩)
  obtain ⟨d', v, hd', hne, -, -, hv⟩ := friend_of_entry hs h hw
  obtain rfl : d = d' := Option.some.inj (hd.symm.trans hd')
  rw [hc, friendOf, hd]
  refine ⟨_, rfl, ?_⟩
  by_cases hcall : call' = call
  · subst hcall
    have hmatch : matchesQuery call'.query (d.other c.uid).email (email call'.client.uid) = true := by
      rw [matchesQuery, if_pos hquery, hv, hc]
      exact decide_eq_true fun he => hne (hemail he)
    simp only [deliveryOf, Option.map_some, shownTo, Option.bind_some, true_and]
    rw [if_pos trivial]
    exact congrArg _ (if_pos hmatch)
  · simp [deliveryOf, shownTo, hcall]

section Quiescent

variable (hemail : Function.Injective email) (hq : s.Quiescent) (hlist : call.list = .friends)
  {e : Env} (hid : e.key = call.id)
  (hev : .pressed (.search call.client .friends call.query) e ∈ s.log)
include hq hlist hid hev

/-- The observer of a call has announced every entry of the index. -/
theorem announced_eq (k : String) : (entryWeight call k).announced s =
    if k ∈ s.tree.children ["user_friends", call.client.uid] then 1 else 0 := by
  have hrun := h.mono fun _ _ hl => hl.succeeds
  have hf := facts_of_reaches hs (fun _ _ => Succeeds.proceeds) hrun
  have hone := observers_eq_one hs hrun hlist hq hid hev
  rw [announced_of_obs (V := observerWeight call) fun o ho => ?_, hone, one_mul]
  obtain ⟨c, q, cb⟩ := o
  have hi : Issued (program email) anyApp s.log c (.ask (.childAdded q cb)) :=
    hf.origin.childObs _ ho
  cases cb with
  | entryAdded call' =>
    by_cases hc : call' = call
    · subst hc
      obtain ⟨rfl, ⟨-, rfl⟩ | ⟨hne, -⟩⟩ := hf.entryAdded_issued hi
      swap
      · exact absurd hlist hne
      rw [weigh_child_eq (k := k) fun k' => by simp [Weight.child, entryWeight]]
      simp [observerWeight]
    · rw [weigh_eq_zero fun k' _ => by simp [Weight.child, entryWeight, hc]]
      simp [observerWeight, hc]
  | requestSend | recipientAdded | userFriendAdded | recipientFriendAdded | removeOuter |
    removeInner | peerAdded | recordRead | userRead =>
    change weigh (fun _ => 0) _ = 0 * _
    rw [weigh_eq_zero fun _ _ => rfl, Nat.zero_mul]

include hemail

/-- Every entry of the index is delivered once, and nothing else. -/
theorem deliveries_perm (hquery : call.query = "") :
    ((deliveries email call s.log).map Prod.fst).Perm
      (s.tree.children ["user_friends", call.client.uid]) := by
  have hrun := h.mono fun _ _ hl => hl.succeeds
  refine List.perm_iff_count.2 fun k => ?_
  have htotal := total_of_reaches hs.initial (fun _ _ hd => hd)
    (fun t ht => entryWeight_balanced hs ht hlist k) hrun
  have hobs : weigh (entryWeight call k).obs s.childObs = 0 := weigh_eq_zero fun _ _ => rfl
  have hsrc : weigh (fun _ : FEvent => 0) s.log = 0 := weigh_eq_zero fun _ _ => rfl
  rw [Weight.total_of_quiescent _ hq, hobs, announced_eq hs h hq hlist hid hev, hsrc] at htotal
  have hcount : ((deliveries email call s.log).map Prod.fst).count k =
      weigh (entryWeight call k).event s.log := by
    rw [deliveries, List.map_filterMap, ← weigh_perm (List.reverse_perm s.log)]
    refine count_filterMap_eq_weigh fun ev hev => ?_
    rw [List.mem_reverse] at hev
    unfold entryWeight
    simp only
    split
    · next call' side k' w e =>
      obtain ⟨users, -, hran⟩ := deliveryOf_ran hs h hemail hquery hev
      rw [hran]
      by_cases hc : call' = call <;> simp [hc]
    · next hno =>
      have hnone : deliveryOf email call ev = none := by
        unfold deliveryOf
        split
        · exact absurd rfl (hno _ _ _ _ _ _)
        · rfl
      simp [hnone]
  rw [hcount, (Tree.children_nodup _ _).count]
  omega

omit hq hlist hid hev in
/-- A delivery shows what its entry is about. -/
theorem friendOf_of_deliveries (hquery : call.query = "") {x : String × Users}
    (hx : x ∈ deliveries email call s.log) :
    friendOf s.tree call.client.uid x.1 = some x.2 := by
  obtain ⟨ev, hmem, hev⟩ := List.mem_filterMap.1 hx
  rw [List.mem_reverse] at hmem
  have hran := hev
  unfold deliveryOf at hran
  split at hran
  · obtain ⟨users, hfriend, hran⟩ := deliveryOf_ran hs h hemail hquery hmem
    rw [hran] at hev
    split at hev
    · next hc =>
      cases hev
      rw [hc] at hfriend
      exact hfriend
    · cases hev
  · cases hran

/-- The list of a call is what the entries of the index are about. -/
theorem arrayUsers_perm (hquery : call.query = "") :
    ((s.app.arrayUsers call).map some).Perm
      ((s.tree.children ["user_friends", call.client.uid]).map
        (friendOf s.tree call.client.uid)) := by
  have hperm := (deliveries_perm hs h hemail hq hlist hid hev hquery).map
    (friendOf s.tree call.client.uid)
  rw [List.map_map] at hperm
  rw [arrayUsers_of_reaches hs (h.mono fun _ _ hl => hl.succeeds) hlist, List.map_map]
  refine (List.Perm.of_eq (List.map_congr_left fun x hx => ?_)).trans hperm
  exact (friendOf_of_deliveries hs h hemail hquery hx).symm

end Quiescent

/-! ## Both lists -/

/-- The entry `k` of `u` is about `v`. -/
def isAbout (tree : Realtime.Tree Loc) (u v : UID) (k : String) : Bool :=
  ((friendOf tree u k).bind Users.userId) = some v

/-- When nothing is in flight, an entry of `u` about `v` is one of `v` about `u`. -/
theorem isAbout_symm (hq : s.Quiescent) (hk : k ∈ s.tree.children ["user_friends", u])
    (habout : isAbout s.tree u v k = true) :
    k ∈ s.tree.children ["user_friends", v] ∧ isAbout s.tree v u k = true := by
  have hrun := h.mono fun _ _ hl => hl.succeeds
  have hf := facts_of_reaches hs (fun _ _ => Succeeds.proceeds) hrun
  have entry : ∀ {u}, k ∈ s.tree.children ["user_friends", u] →
      ∃ d v, s.tree.lookup (.friends k) = some d ∧ v ≠ u ∧
        (d.fromId = u ∧ d.toId = v ∨ d.fromId = v ∧ d.toId = u) ∧
          (friendOf s.tree u k).bind Users.userId = some v := by
    intro u hk
    obtain ⟨l, hl, hkey⟩ := Tree.mem_children.1 hk
    obtain rfl := childKey_userFriends.1 hkey
    obtain ⟨d, v, hd, hne, hsides, hv⟩ := friend_of_entry hs h (hf.origin.tree _ hl)
    refine ⟨d, v, hd, hne, hsides, ?_⟩
    rw [friendOf, hd]
    exact congrArg some hv.1
  obtain ⟨d, v', hd, hne, hsides, hv⟩ := entry hk
  have habout := of_decide_eq_true habout
  obtain rfl : v' = v := Option.some.inj (hv.symm.trans habout)
  -- the accept that made the record has made both entries
  have hacc := hf.accepted_of_lookup hd
  have hkv : k ∈ s.tree.children ["user_friends", v'] := by
    refine Tree.mem_children.2 ⟨.userFriends v' k, ?_, childKey_userFriends.2 rfl⟩
    refine friends_of_accepted hs hrun hq hacc (mem_friendshipLocs.2 ?_)
    rcases hsides with ⟨-, rfl⟩ | ⟨rfl, -⟩
    · exact .inr (.inl rfl)
    · exact .inr (.inr rfl)
  obtain ⟨d', u', hd', -, hsides', hu⟩ := entry hkv
  obtain rfl : d = d' := Option.some.inj (hd.symm.trans hd')
  refine ⟨hkv, decide_eq_true (hu.trans (congrArg some ?_))⟩
  rcases hsides with ⟨hfrom, hto⟩ | ⟨hfrom, hto⟩
  · rcases hsides' with ⟨hfrom', -⟩ | ⟨hfrom', -⟩
    · exact absurd (hfrom'.symm.trans hfrom) hne
    · exact hfrom'.symm.trans hfrom
  · rcases hsides' with ⟨-, hto'⟩ | ⟨-, hto'⟩
    · exact hto'.symm.trans hto
    · exact absurd (hto'.symm.trans hto) hne

/-- How often the list of `call` names `v`. -/
def entriesFor (s : FState) (call : Call) (v : UID) : ℕ :=
  (s.app.arrayUsers call).countP fun users => users.userId = some v

section Quiescent

variable (hemail : Function.Injective email) (hq : s.Quiescent) (hlist : call.list = .friends)
  (hquery : call.query = "") {e : Env} (hid : e.key = call.id)
  (hev : .pressed (.search call.client .friends call.query) e ∈ s.log)
include hemail hq hlist hquery hid hev

theorem entriesFor_eq (v : UID) : entriesFor s call v =
    ((s.tree.children ["user_friends", call.client.uid]).filter
      (isAbout s.tree call.client.uid v)).length := by
  have hperm := (arrayUsers_perm hs h hemail hq hlist hid hev hquery).countP_eq
    fun users => users.bind Users.userId = some v
  rw [List.countP_map, List.countP_map] at hperm
  rw [← List.countP_eq_length_filter]
  exact hperm

end Quiescent

end Delivered

/-- The call lists, for each entry of the index of its user, the other user of the record. -/
structure ListsOthers (s : FState) (call : Call) : Prop where
  perm : ((s.app.arrayUsers call).map some).Perm
    ((s.tree.children ["user_friends", call.client.uid]).map (friendOf s.tree call.client.uid))
  other : ∀ k ∈ s.tree.children ["user_friends", call.client.uid],
    ∃ d v, s.tree.lookup (.friends k) = some d ∧ v ≠ call.client.uid ∧
      (d.fromId = call.client.uid ∧ d.toId = v ∨ d.fromId = v ∧ d.toId = call.client.uid) ∧
      ∃ users, friendOf s.tree call.client.uid k = some users ∧ users.userId = some v

/-- When nothing is in flight, a list of all friends shows the other user of every friendship once,
and two users are in each other's lists equally often. -/
theorem friends_list (hemail : Function.Injective email) (hs : Start s₀)
    (h : Reaches (step (program email)) (Loads email) s₀ s) (hq : s.Quiescent) {e : Env}
    (hev : .pressed (.search c .friends "") e ∈ s.log) :
    ListsOthers s ⟨c, .friends, "", e.key⟩ ∧
      ∀ c' e', .pressed (.search c' .friends "") e' ∈ s.log →
        entriesFor s ⟨c, .friends, "", e.key⟩ c'.uid =
          entriesFor s ⟨c', .friends, "", e'.key⟩ c.uid := by
  refine ⟨⟨arrayUsers_perm hs h hemail hq rfl rfl hev rfl, fun k hk => ?_⟩, fun c' e' hev' => ?_⟩
  · have hf := known_of_reaches hs h
    obtain ⟨l, hl, hkey⟩ := Tree.mem_children.1 hk
    obtain rfl := childKey_userFriends.1 hkey
    obtain ⟨d, v, hd, hne, hsides, hv⟩ := friend_of_entry hs h (hf.origin.tree _ hl)
    refine ⟨d, v, hd, hne, hsides, (d.other c.uid).users, ?_, congrArg some hv.1⟩
    rw [friendOf, hd]
    rfl
  · rw [entriesFor_eq hs h hemail hq rfl rfl rfl hev, entriesFor_eq hs h hemail hq rfl rfl rfl hev']
    refine List.Perm.length_eq ((List.perm_ext_iff_of_nodup
      ((Tree.children_nodup _ _).filter _) ((Tree.children_nodup _ _).filter _)).2 fun k => ?_)
    rw [List.mem_filter, List.mem_filter]
    exact ⟨fun hk => isAbout_symm hs h hq hk.1 hk.2, fun hk => isAbout_symm hs h hq hk.1 hk.2⟩

/-- Bob accepts Alice, and then both list their friends. -/
def listing : List FLabel := asking ++ acceptAlice :: accepting true ++ [
  .press (.search alice .friends "") ⟨"l", 16⟩, .serve 0 true, .run 0 ⟨"l1", 17⟩, .serve 0 true,
  .run 0 ⟨"l2", 18⟩, .serve 0 true, .run 0 ⟨"l3", 19⟩,
  .press (.search bob .friends "") ⟨"m", 20⟩, .serve 0 true, .run 0 ⟨"m1", 21⟩, .serve 0 true,
  .run 0 ⟨"m2", 22⟩, .serve 0 true, .run 0 ⟨"m3", 23⟩]

theorem listing_runs : (exec (step (program mail)) (Loads mail) start listing).isSome = true := by
  decide +kernel

def listed : FState := (exec (step (program mail)) (Loads mail) start listing).get listing_runs

theorem mail_injective : Function.Injective mail := fun _ _ h => (String.append_left_inj _).1 h

theorem friends_list_listed : ListsOthers listed ⟨alice, .friends, "", "l"⟩ ∧
    entriesFor listed ⟨alice, .friends, "", "l"⟩ "bob" = 1 ∧
    entriesFor listed ⟨bob, .friends, "", "m"⟩ "alice" = 1 := by
  have hpressed : .pressed (.search alice .friends "") ⟨"l", 16⟩ ∈ listed.log :=
    List.mem_of_getElem? (i := 13) rfl
  have hpressed' : .pressed (.search bob .friends "") ⟨"m", 20⟩ ∈ listed.log :=
    List.mem_of_getElem? (i := 6) rfl
  obtain ⟨hlists, heq⟩ := friends_list mail_injective start_start
    (.of_exec (Option.some_get _).symm) ⟨rfl, rfl, rfl⟩ hpressed
  have hone : entriesFor listed ⟨alice, .friends, "", "l"⟩ "bob" = 1 := by decide +kernel
  exact ⟨hlists, hone, (heq bob _ hpressed').symm.trans hone⟩

end FLChat.Friends
