import FLChat.Friends.LeftOver
import FLChat.Friends.Relationships
import FLChat.Friends.Sending
import FLChat.Realtime.Pending
import Mathlib.Data.Finset.Card

/-!
# What one accept clears

An accept attaches an outer observer where the one who accepts looks for requests. Each event of it
attaches an inner observer to the other direction, and each event of an inner one removes a record
and both index subtrees and completes the accept once more. As long as nothing else goes on between
the two (`Alone`), one accept clears all the requests that were pending between them
(`clears_of_accept`). It completes at least once for each of them, because the entries stay until
an inner observer is attached and told about them all (`Waiting`, `Announced`), and at most `n * n`
times, because everything it issues is paid for by its press (`acceptWeight`). So it completes
exactly once if and only if one request was pending (`clearsOnce_iff`).
-/

namespace FLChat.Friends

open Realtime

variable {email : UID → String} {s₀ s₁ s₂ s₃ s s' : FState} {l : FLabel} {c : Client}
  {a u v : UID} {K : Finset String}

/-! ## What is between two users -/

/-- `x` and `y` are `u` and `v`, in one order or the other. -/
def Pair (u v x y : UID) : Prop := x = u ∧ y = v ∨ x = v ∧ y = u

instance : Decidable (Pair u v x y) := inferInstanceAs (Decidable (_ ∨ _))

/-- The callback belongs to a send or an accept between `u` and `v`. -/
def Cb.Joins (u v : UID) (c : Client) : Cb → Prop
  | .requestSend _ t _ => Pair u v c.uid t
  | .userFriendAdded _ f _ | .recipientFriendAdded f _ => Pair u v c.uid f
  | .removeOuter t f _ | .removeInner t f _ => Pair u v t f
  | .recipientAdded | .peerAdded _ | .entryAdded _ | .recordRead _ | .userRead .. => False

/-- The press sends or accepts between `u` and `v`. -/
def Action.Joins (u v : UID) : Action → Prop
  | .sendFrienRequestBtnPressed c peer | .addUsertoFriendsBtnPressed c peer =>
    Pair u v c.uid peer.uid
  | .search .. | .didSelectItemAt .. | .profileLoaded .. => False

/-- The event belongs to a send or an accept between `u` and `v`. -/
def EventJoins (u v : UID) : FEvent → Prop
  | .pressed act _ => act.Joins u v
  | .ran t _ => t.cb.Joins u v t.client
  | .resolved .. | .served .. | .died _ => False

/-- The callback belongs to an accept of `a` on `c`. -/
def Cb.Accepts (c : Client) (a : UID) : Cb → Prop
  | .userFriendAdded _ f _ | .recipientFriendAdded f _ => f = a
  | .removeOuter t f _ | .removeInner t f _ => t = c.uid ∧ f = a
  | .requestSend .. | .recipientAdded | .peerAdded _ | .entryAdded _ | .recordRead _ |
    .userRead .. => False

instance : DecidablePred (Action.Joins u v)
  | .sendFrienRequestBtnPressed c peer | .addUsertoFriendsBtnPressed c peer =>
    inferInstanceAs (Decidable (Pair u v c.uid peer.uid))
  | .search .. | .didSelectItemAt .. | .profileLoaded .. => isFalse id

/-- The requests `K` are pending between `u` and `v` in both directions of the index, and nothing
else between the two is under way. -/
structure Outstanding (s : FState) (u v : UID) (K : Finset String) : Prop where
  indexed : ∀ x y, Pair u v x y → ∀ k, .userFriendRequest x y k ∈ s.tree ↔ k ∈ K
  callbacks : ∀ c, ∀ cb ∈ s.pending c, ¬ cb.Joins u v c
  entries : ∀ w ∈ s.writes, ∀ x y k n, w.op = .update (.userFriendRequest x y k) n → ¬ Pair u v x y
  removals : ∀ w ∈ s.writes, ∀ x y, w.op = .remove (friendRequestsWith x y) → ¬ Pair u v x y

/-- The steps of a run in which every write succeeds, the process of `c` lives and nothing else is
sent or accepted between `c` and `a`. -/
def Undisturbed (c : Client) (a : UID) (_ : FState) : FLabel → Prop
  | .press act _ => ¬ act.Joins a c.uid
  | .commit _ ok => ok = true
  | .die c' => c' ≠ c
  | .run _ _ | .serve _ _ => True

instance (s : FState) : DecidablePred (Undisturbed c a s)
  | .press act _ => inferInstanceAs (Decidable (¬ act.Joins a c.uid))
  | .commit _ ok => inferInstanceAs (Decidable (ok = true))
  | .die c' => inferInstanceAs (Decidable (c' ≠ c))
  | .run _ _ | .serve _ _ => isTrue trivial

/-- The key of the request whose event completed the accept of `a` on `c`. -/
def completedKey (c : Client) (a : UID) : FEvent → Option String
  | .ran ⟨c', .removeInner t f _, .childAdded k⟩ _ =>
    if c' = c ∧ t = c.uid ∧ f = a then some k else none
  | _ => none

/-- The keys for which the accept of `a` on `c` was completed, one for each time. -/
def completedKeys (c : Client) (a : UID) (log : List FEvent) : List String :=
  log.filterMap (completedKey c a)

/-! ## Who issues what is between two users -/

section Issues

variable {ev : FEvent} {app : App} {c' : Client}

theorem joins_of_completion {cmd : Command} {cb : Cb} (hi : Issues email ev app c' cmd)
    (hcb : cmd.completion = some cb) (hj : cb.Joins u v c') : EventJoins u v ev := by
  cases hi with
  | requestIndex | friendIndex | recipientFriendIndex | outer | inner =>
    cases hcb
    exact hj
  | recipientIndex | searchFriends | searchRequests | peerEntries | readRecord | readFriend
  | readRequest =>
    cases hcb
    exact hj.elim
  | request | friend | removeRequest | removeIndex | removeSenderIndex => cases hcb

/-- What an accept issues goes on with this accept. -/
theorem accepts_of_completion {t : Task Loc Client Cb} {e : Env} {cmd : Command} {cb : Cb}
    (hi : Issues email (.ran t e) app t.client cmd) (hcb : cmd.completion = some cb)
    (ht : t.cb.Accepts t.client a) : cb.Accepts t.client a := by
  cases hi with
  | recipientFriendIndex | inner =>
    cases hcb
    exact ht
  | outer =>
    cases hcb
    exact ⟨rfl, ht⟩
  | recipientIndex | peerEntries | readRecord | readFriend | readRequest => exact ht.elim
  | removeRequest | removeIndex | removeSenderIndex => cases hcb

/-- An entry is written by a send. -/
theorem joins_of_entry {x y : UID} {k : String} {n : ℕ} {cb : Option Cb}
    (hi : Issues email ev app c' (.write (.update (.userFriendRequest x y k) n) cb))
    (hxy : Pair u v x y) : EventJoins u v ev ∧ ∀ t e, ev = .ran t e → ¬ t.cb.Accepts c a := by
  cases hi with
  | requestIndex => exact ⟨hxy, fun t e he => by cases he⟩
  | recipientIndex =>
    refine ⟨hxy.symm.imp And.symm And.symm, fun t e he => ?_⟩
    cases he
    exact id

/-- A subtree of the index is removed by an inner observer of the pair. -/
theorem innerOf_of_removal {x y : UID} {cb : Option Cb}
    (hi : Issues email ev app c' (.write (.remove (friendRequestsWith x y)) cb))
    (hxy : Pair u v x y) :
    ∃ t e k, ev = .ran t e ∧ InnerOf u v t.cb ∧ t.input = .childAdded k := by
  generalize hp : friendRequestsWith x y = p at hi
  cases hi with
  | removeRequest => simp [friendRequestsWith] at hp
  | removeIndex =>
    obtain ⟨rfl, rfl⟩ := friendRequestsWith_inj hp
    exact ⟨_, _, _, rfl, hxy.symm.imp And.symm And.symm, rfl⟩
  | removeSenderIndex =>
    obtain ⟨rfl, rfl⟩ := friendRequestsWith_inj hp
    exact ⟨_, _, _, rfl, hxy, rfl⟩

/-- The paths of the observers of an accept. -/
theorem outer_issued {G : Guard Loc Client Cb Unit App Action} {log : List FEvent} {p : Path}
    {t f : UID} {name : String}
    (hi : Issued (program email) G log c' (.ask (.childAdded p (.removeOuter t f name)))) :
    p = friendRequestsWith t f := by
  obtain ⟨ev, -, app, -, hi⟩ := issues_of_issued hi
  cases hi with
  | outer => rfl

theorem inner_issued {G : Guard Loc Client Cb Unit App Action} {log : List FEvent} {p : Path}
    {t f : UID} {name : String}
    (hi : Issued (program email) G log c' (.ask (.childAdded p (.removeInner t f name)))) :
    p = friendRequestsWith f t := by
  obtain ⟨ev, -, app, -, hi⟩ := issues_of_issued hi
  cases hi with
  | inner => rfl

end Issues

/-! ## Nothing else goes on between the two -/

/-- What concerns the pair belongs to the accept of `a` on `c`, and nothing that waits adds to the
requests `K`. -/
structure Alone (s : FState) (c : Client) (a : UID) (K : Finset String) : Prop where
  callbacks : ∀ c', ∀ cb ∈ s.pending c', cb.Joins a c.uid c' → c' = c ∧ cb.Accepts c a
  entries : ∀ w ∈ s.writes, ∀ x y k n, w.op = .update (.userFriendRequest x y k) n →
    ¬ Pair a c.uid x y
  records : ∀ w ∈ s.writes, ∀ k ∈ K, ∀ d, w.op ≠ .update (.friendRequest k) d
  indexed : ∀ x y, Pair a c.uid x y → ∀ k, .userFriendRequest x y k ∈ s.tree → k ∈ K
  issued : ∀ k ∈ K, k ∈ s.issued

/-- The press that a step logs is one that its class allows. -/
theorem Undisturbed.not_joins (hl : Undisturbed c a s l) (hs : Transition (program email) s l s')
    {act : Action} {e : Env} (hlog : s'.log = .pressed act e :: s.log) :
    ¬ act.Joins a c.uid := by
  cases hs with
  | press =>
    cases (List.cons.inj hlog).1
    exact hl
  | run | apply | reject | serve | die => cases (List.cons.inj hlog).1

theorem Alone.step (h : Alone s c a K) (hs : Transition (program email) s l s')
    (hl : Undisturbed c a s l) : Alone s' c a K := by
  -- an event that issues something between the two belongs to the accept
  have event : ∀ t ∈ s.tasks, t.cb.Joins a c.uid t.client → t.client = c ∧ t.cb.Accepts c a :=
    fun t ht => h.callbacks _ _ (mem_pending_of_task ht)
  refine ⟨fun c' cb hcb hj => ?_, fun w hw x y k n hop hxy => ?_, fun w hw k hk d hop => ?_,
    fun x y hxy k hk => ?_, fun k hk => ?_⟩
  · rcases mem_pending_step hcb hs with hcb | ⟨act, e, app, cmds, hlog, hact, cmd, hcmd, hc⟩ |
      ⟨t, e, app, cmds, ht, rfl, hrun, cmd, hcmd, hc⟩
    · exact h.callbacks c' cb hcb hj
    · exact absurd (joins_of_completion (issues_of_act hact hcmd) hc hj) (hl.not_joins hs hlog)
    · have hi := issues_of_run (e := e) hrun hcmd
      obtain ⟨hclient, haccepts⟩ := event t ht (joins_of_completion hi hc hj)
      rw [← hclient] at haccepts ⊢
      exact ⟨rfl, accepts_of_completion hi hc haccepts⟩
  · rcases mem_writes_step hw hs with hw | ⟨act, e, app, cmds, -, hact, hcmd, rfl⟩ |
      ⟨i, t, e, app, cmds, ht, hc, hrun, hcmd, -⟩
    · exact h.entries w hw x y k n hop hxy
    · rw [hop] at hcmd
      exact hl.not_joins hs rfl (joins_of_entry (c := c) (a := a) (issues_of_act hact hcmd) hxy).1
    · rw [hop] at hcmd
      obtain ⟨hj, hna⟩ :=
        joins_of_entry (c := c) (a := a) (issues_of_run (e := e) hrun hcmd) hxy
      exact hna _ _ rfl (event t ht hj).2
  · rcases mem_writes_step hw hs with hw | ⟨act, e, app, cmds, hkey, hact, hcmd, -⟩ |
      ⟨i, t, e, app, cmds, ht, hc, hrun, hcmd, -⟩
    · exact h.records w hw k hk d hop
    · rw [hop] at hcmd
      generalize w.completion = cb at hcmd
      cases issues_of_act hact hcmd with
      | request => exact hkey (h.issued _ hk)
    · obtain ⟨c', cb', input⟩ := t
      rw [hop] at hcmd
      generalize w.completion = cb at hcmd
      cases issues_of_run (e := e) hrun hcmd
  · by_cases hold : .userFriendRequest x y k ∈ s.tree
    · exact h.indexed x y hxy k hold
    · refine absurd hk (not_mem_tree_step hold (fun w hw n hop => ?_) hs)
      exact h.entries w hw x y k n hop hxy
  · cases hs with
    | press | run => exact List.mem_cons_of_mem _ (h.issued k hk)
    | apply | reject | serve | die => exact h.issued k hk

theorem Alone.of_reaches (h : Alone s₂ c a K)
    (h₂ : Reaches (Realtime.step (program email)) (Undisturbed c a) s₂ s₃) : Alone s₃ c a K :=
  h₂.invariant (I := fun s => Alone s c a K) h fun ih hl hstep =>
    ih.step (transition_of_step hstep) hl

section Outstanding

variable {ok : FState → FLabel → Prop} {peer : UserParams} {e : Env} (hs : Start s₀)
  (h₁ : Reaches (step (program email)) ok s₀ s₁) (hk : Outstanding s₁ a c.uid K)
include hs h₁ hk

/-- The requests that are pending were drawn and written before. -/
theorem Outstanding.drawn {k : String} (hmem : k ∈ K) :
    k ∈ s₁.issued ∧ Answered s₁.log (.userFriendRequest a c.uid k) := by
  have ht := traced_of_reaches hs h₁
  have hwritten := ht.origin.tree _ ((hk.indexed a c.uid (.inl ⟨rfl, rfl⟩) k).2 hmem)
  refine ⟨?_, Written.answered hwritten⟩
  rcases ht.between_of_written hwritten with hsent | hsent
  all_goals
    obtain ⟨c', -, peer, e, hev, -, rfl⟩ := hsent
    exact ht.keys.issued _ hev e.key rfl

theorem Outstanding.alone (ha : peer.uid = a)
    (hpress : step (program email) s₁ (.press (.addUsertoFriendsBtnPressed c peer) e) = some s₂) :
    Alone s₂ c a K := by
  have hsettled := recordSettled_of_reaches hs h₁
  cases transition_of_step hpress with
  | press hkey hact =>
    rw [program_act] at hact
    cases pressed_of_act hact with
    | accept =>
      subst ha
      refine ⟨fun c' cb hcb hj => ?_, fun w hw x y k n hop => ?_, fun w hw k hmem d hop => ?_,
        fun x y hxy k => (hk.indexed x y hxy k).1, fun k hmem => ?_⟩
      · rcases mem_pending_pressed hcb with hcb | ⟨rfl, hcmd⟩
        · exact absurd hj (hk.callbacks c' cb hcb)
        · simp only [addUsertoFriendsBtnPressed, friendIntoDB, userFriendIntoDB, List.map_cons,
            Cmd.completion, List.map_nil, List.mem_cons, reduceCtorEq, Option.some.injEq,
            List.not_mem_nil, or_false, false_or] at hcmd
          rw [hcmd]
          exact ⟨rfl, rfl⟩
      · rcases List.mem_append.1 hw with hw | hw
        · exact hk.entries w hw x y k n hop
        · obtain ⟨-, hcmd⟩ := mem_newWrites.1 hw
          rw [hop] at hcmd
          simp [addUsertoFriendsBtnPressed, friendIntoDB, userFriendIntoDB] at hcmd
      · rcases List.mem_append.1 hw with hw | hw
        · exact hsettled _ (hk.drawn hs h₁ hmem).2 rfl w hw _ d hop rfl rfl
        · obtain ⟨-, hcmd⟩ := mem_newWrites.1 hw
          rw [hop] at hcmd
          simp [addUsertoFriendsBtnPressed, friendIntoDB, userFriendIntoDB] at hcmd
      · exact List.mem_cons_of_mem _ (hk.drawn hs h₁ hmem).1

end Outstanding

/-- Where nothing is in flight and no accept between the two was pressed, nothing but the requests
is between them. -/
theorem Outstanding.of_quiescent {G : Guard Loc Client Cb Unit App Action}
    (ht : Traced email G s) (hq : s.Quiescent)
    (hno : ∀ k, ¬ Accepted s.log u v k ∧ ¬ Accepted s.log v u k)
    (hK : ∀ x y, Pair u v x y → ∀ k, .userFriendRequest x y k ∈ s.tree ↔ k ∈ K) :
    Outstanding s u v K where
  indexed := hK
  entries := by simp [hq.writes]
  removals := by simp [hq.writes]
  callbacks c cb hcb hj := by
    have hpair : ∀ t f, (∃ k, Accepted s.log f t k) → ¬ Pair u v t f := by
      rintro t f ⟨k, hacc⟩ (⟨rfl, rfl⟩ | ⟨rfl, rfl⟩)
      · exact (hno k).2 hacc
      · exact (hno k).1 hacc
    rcases mem_pending.1 hcb with ⟨w, hw, -⟩ | ⟨ask, hask, -⟩ | ⟨i, htask⟩ | ⟨p, ho⟩ | ⟨l, ho⟩
    · simp [hq.writes] at hw
    · simp [hq.asks] at hask
    · simp [hq.tasks] at htask
    · have hi : Issued (program email) G s.log c (.ask (.childAdded p cb)) :=
        ht.origin.childObs _ ho
      cases cb with
      | removeOuter t f name => exact hpair t f (ht.accepted_of_outer hi) hj
      | removeInner t f name => exact hpair t f (ht.accepted_of_inner hi) hj
      | requestSend | userFriendAdded | recipientFriendAdded =>
        obtain ⟨ev, -, app, -, hi⟩ := issues_of_issued hi
        cases hi
      | recipientAdded | peerAdded | entryAdded | recordRead | userRead => exact hj
    · have hi : Issued (program email) G s.log c (.ask (.value l cb)) := ht.origin.valueObs _ ho
      obtain ⟨ev, -, app, -, hi⟩ := issues_of_issued hi
      cases hi <;> exact hj

/-- The same of a state whose presses and locations are at hand. -/
theorem Outstanding.of_keys {G : Guard Loc Client Cb Unit App Action} (ht : Traced email G s)
    (hq : s.Quiescent) (hno : acceptKeys s.log u v ++ acceptKeys s.log v u = [])
    (hK : ∀ k ∈ K, .userFriendRequest u v k ∈ s.tree ∧ .userFriendRequest v u k ∈ s.tree)
    (hkeys : ∀ l ∈ s.tree.keys, l.key ∈ K) : Outstanding s u v K := by
  obtain ⟨hno, hno'⟩ := List.append_eq_nil_iff.1 hno
  refine .of_quiescent ht hq (fun k => ⟨fun hacc => ?_, fun hacc => ?_⟩) fun x y hxy k =>
    ⟨fun hmem => hkeys _ (AList.mem_keys.1 hmem), fun hk => ?_⟩
  · have := mem_acceptKeys.2 hacc
    rw [hno] at this
    cases this
  · have := mem_acceptKeys.2 hacc
    rw [hno'] at this
    cases this
  · rcases hxy with ⟨rfl, rfl⟩ | ⟨rfl, rfl⟩
    · exact (hK k hk).1
    · exact (hK k hk).2

/-! ## At most `n * n` completions -/

/-- What a callback of the accept may still bring about while it waits, for `n` requests. -/
def Cb.budget (n : ℕ) (c : Client) (a : UID) : Cb → ℕ
  | .userFriendAdded _ f _ | .recipientFriendAdded f _ => if f = a then n * n else 0
  | .removeOuter t f _ => if t = c.uid ∧ f = a then n * n else 0
  | .removeInner t f _ => if t = c.uid ∧ f = a then n else 0
  | .requestSend .. | .recipientAdded | .peerAdded _ | .entryAdded _ | .recordRead _ |
    .userRead .. => 0

/-- What one event of an observer of the accept may bring about. -/
def Cb.share (n : ℕ) (c : Client) (a : UID) : Cb → ℕ
  | .removeOuter t f _ => if t = c.uid ∧ f = a then n else 0
  | .removeInner t f _ => if t = c.uid ∧ f = a then 1 else 0
  | .requestSend .. | .recipientAdded | .userFriendAdded .. | .recipientFriendAdded .. |
    .peerAdded _ | .entryAdded _ | .recordRead _ | .userRead .. => 0

/-- Counts the completions of the accept of `a` on `c`, and what is under way for them. -/
def acceptWeight (n : ℕ) (c : Client) (a : UID) : Weight Loc Client Cb Unit Action where
  write w := if w.client = c then w.completion.elim 0 (Cb.budget n c a) else 0
  ask x := if x.1 = c then x.2.cb.budget n c a else 0
  task t :=
    if t.client = c then
      match t.input with
      | .acked _ => t.cb.budget n c a
      | .childAdded _ => t.cb.share n c a
      | .value .. | .stored _ | .url _ => 0
    else 0
  event ev := if (completedKey c a ev).isSome then 1 else 0

theorem joins_of_budget {n : ℕ} {cb : Cb} (h : cb.budget n c a ≠ 0) : cb.Joins a c.uid c := by
  cases cb with
  | userFriendAdded _ f _ | recipientFriendAdded f _ => exact .inr ⟨rfl, (ite_ne_right_iff.1 h).1⟩
  | removeOuter t f _ | removeInner t f _ => exact .inr (ite_ne_right_iff.1 h).1
  | requestSend | recipientAdded | peerAdded | entryAdded | recordRead | userRead =>
    exact absurd rfl h

theorem joins_of_share {n : ℕ} {cb : Cb} (h : cb.share n c a ≠ 0) : cb.Joins a c.uid c := by
  cases cb with
  | removeOuter t f _ | removeInner t f _ => exact .inr (ite_ne_right_iff.1 h).1
  | requestSend | recipientAdded | userFriendAdded | recipientFriendAdded | peerAdded | entryAdded
  | recordRead | userRead => exact absurd rfl h

theorem completedKeys_length (n : ℕ) (log : List FEvent) :
    (completedKeys c a log).length = weigh (acceptWeight n c a).event log := by
  induction log with
  | nil => rfl
  | cons ev log ih =>
    rw [weigh_cons, ← ih, completedKeys, List.filterMap_cons]
    simp only [acceptWeight]
    cases completedKey c a ev with
    | none => simp [completedKeys]
    | some k =>
      simp only [Option.isSome_some, ↓reduceIte, List.length_cons, completedKeys]
      omega

/-- Other clients have nothing to do with it. -/
theorem acceptWeight_ignores (n : ℕ) {c' : Client} (hc : c' ≠ c) :
    (acceptWeight n c a).Ignores c' where
  write _ _ := if_neg hc
  ask _ := if_neg hc
  task _ _ := if_neg hc
  obs _ _ := rfl

/-- A callback issues no more than it was given. -/
theorem acceptWeight_handle (n : ℕ) (t : Task Loc Client Cb) (e : Env) (app : App) :
    (acceptWeight n c a).cmds t.client (handle email t.client t.cb t.input app).2 +
      (acceptWeight n c a).event (.ran t e) ≤ (acceptWeight n c a).task t := by
  obtain ⟨c', cb, input⟩ := t
  by_cases hc : c' = c
  · subst hc
    cases cb with
    | requestSend | userFriendAdded | recipientFriendAdded | recipientAdded | peerAdded
    | entryAdded =>
      cases input <;> simp [handle, acceptWeight, Cb.budget, Cb.share, completedKey, Ask.cb,
        recipientsUserFriendRequestIntoDB, recipientsUserFriendIntoDB,
        removeFriendRequestsFromDatabase]
    | removeOuter t f name | removeInner t f name =>
      cases input <;> simp [handle, acceptWeight, Cb.budget, Cb.share, completedKey, Ask.cb,
        removeOuter, removeInner]
    | recordRead call =>
      -- a reading asks at most for another one
      have hcmds : (acceptWeight n c' a).cmds c' (handle email c' (.recordRead call) input app).2 =
          0 := by
        refine Weight.cmds_eq_zero _ (fun op cb hcmd => ?_) fun ask hcmd => ?_
        · cases issues_of_handle (e := e) hcmd
        · cases issues_of_handle (e := e) hcmd <;> simp [acceptWeight, Ask.cb, Cb.budget]
      rw [hcmds]
      simp [acceptWeight, completedKey]
    | userRead call side =>
      cases input with
      | value l v => cases l <;> simp [handle, completedKey, acceptWeight]
      | acked | childAdded | stored | url => simp [handle, completedKey, acceptWeight]
  · rw [(acceptWeight_ignores n hc).cmds_eq_zero]
    have hev : completedKey c a (.ran ⟨c', cb, input⟩ e) = none := by
      unfold completedKey
      split
      · next he =>
        cases he
        simp [hc]
      · rfl
    simp [acceptWeight, hev]

section Spends

variable {G : Guard Loc Client Cb Unit App Action} (ht : Traced email G s) (h : Alone s c a K)

include h in
/-- An observer of the pair is told about the pending requests and no others. -/
theorem Alone.children_length_le {x y : UID} (hxy : Pair a c.uid x y) :
    (s.tree.children (friendRequestsWith x y)).length ≤ K.card := by
  rw [← List.toFinset_card_of_nodup (Tree.children_nodup _ _)]
  refine Finset.card_le_card fun k hk => ?_
  obtain ⟨l, hl, hkey⟩ := Tree.mem_children.1 (List.mem_toFinset.1 hk)
  obtain rfl := childKey_friendRequestsWith.1 hkey
  exact h.indexed x y hxy k hl

include h in
/-- What an observer is told when it is attached costs no more than its request weighs. -/
theorem Alone.share_le {log : List FEvent} {p : Path} {cb : Cb}
    (hi : Issued (program email) G log c (.ask (.childAdded p cb))) :
    (s.tree.children p).length * cb.share K.card c a ≤ cb.budget K.card c a := by
  by_cases hzero : cb.share K.card c a = 0
  · simp [hzero]
  · cases cb with
    | removeOuter t f name =>
      obtain ⟨rfl, rfl⟩ := (ite_ne_right_iff.1 hzero).1
      rw [outer_issued hi]
      have := h.children_length_le (.inr ⟨rfl, rfl⟩)
      simpa [Cb.share, Cb.budget] using Nat.mul_le_mul_right K.card this
    | removeInner t f name =>
      obtain ⟨rfl, rfl⟩ := (ite_ne_right_iff.1 hzero).1
      rw [inner_issued hi]
      simpa [Cb.share, Cb.budget] using h.children_length_le (.inl ⟨rfl, rfl⟩)
    | requestSend | recipientAdded | userFriendAdded | recipientFriendAdded | peerAdded
    | entryAdded | recordRead | userRead => exact absurd rfl hzero

include ht h in
/-- No write raises anything at an observer of the accept. -/
theorem Alone.share_eq_zero {w : Write Loc Client Cb} (hw : w ∈ s.writes)
    {o : ChildObserver Client Cb} (ho : o ∈ s.childObs) (hc : o.client = c) {l : Loc} {v : Val l}
    {k : String} (hop : w.op = .update l v) (hk : Tree.childKey o.path l = some k) :
    o.cb.share K.card c a = 0 := by
  have hi := ht.origin.childObs o ho
  obtain ⟨c', p, cb⟩ := o
  simp only at hc hi hk ⊢
  by_contra hzero
  cases cb with
  | removeOuter t f name =>
    obtain ⟨rfl, rfl⟩ := (ite_ne_right_iff.1 hzero).1
    rw [outer_issued hi] at hk
    obtain rfl := childKey_friendRequestsWith.1 hk
    exact h.entries w hw _ _ k v hop (.inr ⟨rfl, rfl⟩)
  | removeInner t f name =>
    obtain ⟨rfl, rfl⟩ := (ite_ne_right_iff.1 hzero).1
    rw [inner_issued hi] at hk
    obtain rfl := childKey_friendRequestsWith.1 hk
    exact h.entries w hw _ _ k v hop (.inl ⟨rfl, rfl⟩)
  | requestSend | recipientAdded | userFriendAdded | recipientFriendAdded | peerAdded
  | entryAdded | recordRead | userRead => exact hzero rfl

include ht h in
theorem Alone.spends : Spends (program email) (acceptWeight K.card c a) s where
  run t _ e := acceptWeight_handle K.card t e s.app
  write w _ ok := by
    obtain ⟨c', op, completion⟩ := w
    cases completion <;> simp [Write.ack, acceptWeight, completedKey]
  raise w hw t hevent := by
    rcases hevent with ht' | ht'
    · obtain ⟨o, ho, l, v, k, hop, hk, -, rfl⟩ := mem_childEvents.1 ht'
      by_cases hc : o.client = c
      · exact (if_pos hc).trans (h.share_eq_zero ht hw ho hc hop hk)
      · exact if_neg hc
    · obtain ⟨o, -, -, rfl⟩ := mem_valueEvents.1 ht'
      simp [acceptWeight]
  serve c' ask hask ok := by
    have hobs : weigh (acceptWeight K.card c a).obs (ask.childObserver c') = 0 :=
      weigh_eq_zero fun _ _ => rfl
    have hev : (acceptWeight K.card c a).event (.served c' ask ok) = 0 := by
      simp [acceptWeight, completedKey]
    rw [hobs, hev, Nat.add_zero]
    by_cases hc : c' = c
    · subst hc
      cases ask with
      | childAdded p cb =>
        refine le_trans (weigh_le_length_mul (n := cb.share K.card c' a) fun t ht' => ?_) ?_
        · obtain ⟨k, -, rfl⟩ := List.mem_map.1 ht'
          simp [acceptWeight]
        · have := h.share_le (ht.origin.asks _ hask)
          simpa [State.answer, acceptWeight, Ask.cb] using this
      | value | single | putData | downloadURL => simp [State.answer, acceptWeight]
    · refine le_of_eq_of_le (weigh_eq_zero fun t ht' => ?_) (Nat.zero_le _)
      exact if_neg ((mem_answer ht').1 ▸ hc)
  die _ := rfl

end Spends

/-- A press that has nothing to do with the two adds nothing. -/
theorem acceptWeight_press {n : ℕ} {act : Action} {e : Env} {app app' : App} {c' : Client}
    {cmds : List Command} (hl : ¬ act.Joins a c.uid)
    (hact : Friends.act email act e app = some (c', app', cmds)) :
    (acceptWeight n c a).cmds c' cmds + (acceptWeight n c a).event (.pressed act e) = 0 := by
  have hnone : ∀ cmd ∈ cmds, ∀ cb, cmd.completion = some cb → c' = c → cb.budget n c a = 0 := by
    rintro cmd hcmd cb hcb rfl
    by_contra hne
    exact hl (joins_of_completion (issues_of_act hact hcmd) hcb (joins_of_budget hne))
  rw [Weight.cmds_eq_zero _ (fun op cb hcmd => ?_) fun ask hcmd => ?_]
  · rfl
  · by_cases hc : c' = c
    · cases cb with
      | none => simp [acceptWeight]
      | some cb => simpa [acceptWeight, hc] using hnone _ hcmd cb rfl hc
    · exact if_neg hc
  · by_cases hc : c' = c
    · simpa [acceptWeight, hc] using hnone _ hcmd _ rfl hc
    · exact if_neg hc

/-- Nothing of an accept is under way before it. -/
theorem Outstanding.weigh_eq_zero {n : ℕ} (hk : Outstanding s a c.uid K) :
    weigh (acceptWeight n c a).write s.writes = 0 ∧ weigh (acceptWeight n c a).ask s.asks = 0 ∧
      weigh (acceptWeight n c a).task s.tasks = 0 := by
  have hbudget : ∀ cb ∈ s.pending c, cb.budget n c a = 0 := fun cb hcb => by
    by_contra hne
    exact hk.callbacks c cb hcb (joins_of_budget hne)
  have hshare : ∀ cb ∈ s.pending c, cb.share n c a = 0 := fun cb hcb => by
    by_contra hne
    exact hk.callbacks c cb hcb (joins_of_share hne)
  refine ⟨Realtime.weigh_eq_zero fun w hw => ?_, Realtime.weigh_eq_zero fun x hx => ?_,
    Realtime.weigh_eq_zero fun t ht => ?_⟩
  · by_cases hc : w.client = c
    · refine (if_pos hc).trans ?_
      cases hcb : w.completion with
      | none => rfl
      | some cb => exact hbudget cb (mem_pending.2 (.inl ⟨w, hw, hc, hcb⟩))
    · exact if_neg hc
  · obtain ⟨c', ask⟩ := x
    by_cases hc : c' = c
    · subst hc
      exact (if_pos rfl).trans (hbudget _ (mem_pending.2 (.inr (.inl ⟨ask, hx, rfl⟩))))
    · exact if_neg hc
  · by_cases hc : t.client = c
    · have hmem : t.cb ∈ s.pending c := hc ▸ mem_pending_of_task ht
      refine (if_pos hc).trans ?_
      cases t.input with
      | acked => exact hbudget _ hmem
      | childAdded => exact hshare _ hmem
      | value | stored | url => rfl
    · exact if_neg hc

section UpperBound

variable {ok : FState → FLabel → Prop} {peer : UserParams} {e : Env} (hs : Start s₀)
  (h₁ : Reaches (step (program email)) ok s₀ s₁) (hk : Outstanding s₁ a c.uid K)
  (ha : peer.uid = a)
  (hpress : step (program email) s₁ (.press (.addUsertoFriendsBtnPressed c peer) e) = some s₂)
  (h₂ : Reaches (step (program email)) (Undisturbed c a) s₂ s₃)
include hk ha hpress

/-- The press pays for the whole accept. -/
theorem total_of_press : (acceptWeight K.card c a).total s₂ =
    K.card * K.card + weigh (acceptWeight K.card c a).event s₂.log := by
  obtain ⟨hwrites, hasks, htasks⟩ := hk.weigh_eq_zero (n := K.card)
  have hobs : weigh (acceptWeight K.card c a).obs s₁.childObs = 0 :=
    Realtime.weigh_eq_zero fun _ _ => rfl
  cases transition_of_step hpress with
  | press hkey hact =>
    rw [program_act] at hact
    cases pressed_of_act hact with
    | accept =>
      have hnew : weigh (acceptWeight K.card c a).write
          (newWrites c (addUsertoFriendsBtnPressed c peer e s₁.app)) = K.card * K.card := by
        simp [newWrites, addUsertoFriendsBtnPressed, friendIntoDB, userFriendIntoDB, acceptWeight,
          Cb.budget, ha]
      have hnone : newAsks c (addUsertoFriendsBtnPressed c peer e s₁.app) = [] := rfl
      simp only [Weight.total, State.pressed_writes, State.pressed_asks, State.pressed_tasks,
        State.pressed_childObs, weigh_append, hwrites, hasks, htasks, hobs, hnew, hnone, weigh_nil]
      omega

include hs h₁ h₂

theorem completedKeys_length_le :
    (completedKeys c a (since s₂ s₃)).length ≤ K.card * K.card := by
  have halone := hk.alone hs h₁ ha hpress
  have hrun : Reaches (step (program email)) (fun s l => ok s l ∨ True) s₀ s₂ :=
    (h₁.mono fun _ _ => .inl).tail (.inr trivial) hpress
  have htotal : (acceptWeight K.card c a).total s₃ ≤ (acceptWeight K.card c a).total s₂ := by
    refine total_le_of_reaches (fun t ht => ?_) (fun t act e hl c' app cmds hact => ?_) h₂
    · exact (halone.of_reaches ht).spends
        (traced_of_reaches hs (hrun.trans (ht.mono fun _ _ _ => .inr trivial)))
    · exact acceptWeight_press hl hact
  rw [total_of_press hk ha hpress, Weight.total, ← since_append (log_suffix h₂), weigh_append]
    at htotal
  rw [completedKeys_length K.card]
  omega

end UpperBound

/-! ## At least `n` completions -/

/-- What the accept of `a` on `c` waits for, from the press until an inner observer is attached. -/
inductive Chain (s : FState) (c : Client) (a : UID) : Prop
  | owner {op k name} (h : ⟨c, op, some (.userFriendAdded k a name)⟩ ∈ s.writes)
  | ownerAdded {k name ok} (h : ⟨c, .userFriendAdded k a name, .acked ok⟩ ∈ s.tasks)
  | recipient {op name} (h : ⟨c, op, some (.recipientFriendAdded a name)⟩ ∈ s.writes)
  | recipientAdded {name ok} (h : ⟨c, .recipientFriendAdded a name, .acked ok⟩ ∈ s.tasks)
  | outer {name} (h : (c, .childAdded (friendRequestsWith c.uid a) (.removeOuter c.uid a name)) ∈
      s.asks)
  | outerEvent {k name} (h : ⟨c, .removeOuter c.uid a name, .childAdded k⟩ ∈ s.tasks)
  | inner {name} (h : (c, .childAdded (friendRequestsWith a c.uid) (.removeInner c.uid a name)) ∈
      s.asks)

/-- No inner observer of the pair is attached yet, so its entries are all there. -/
structure Waiting (s : FState) (c : Client) (a : UID) (K : Finset String) : Prop where
  entries : ∀ x y, Pair a c.uid x y → ∀ k ∈ K, .userFriendRequest x y k ∈ s.tree
  removals : ∀ w ∈ s.writes, ∀ x y, w.op = .remove (friendRequestsWith x y) → ¬ Pair a c.uid x y
  observers : ∀ o ∈ s.childObs, ¬ InnerOf a c.uid o.cb
  events : ∀ t ∈ s.tasks, InnerOf a c.uid t.cb → ∀ k, t.input ≠ .childAdded k
  chain : Chain s c a

/-- The event that completes the accept for `k` is due or has run. -/
def Announced (s : FState) (log : List FEvent) (c : Client) (a : UID) (k : String) : Prop :=
  (∃ name, ⟨c, .removeInner c.uid a name, .childAdded k⟩ ∈ s.tasks) ∨ k ∈ completedKeys c a log

/-- The accept goes on until it asks for an inner observer and the server serves it. -/
theorem Chain.step (h : Chain s c a) (hs : Transition (program email) s l s') (hl : l ≠ .die c)
    {k : String} (hk : .userFriendRequest c.uid a k ∈ s.tree) :
    Chain s' c a ∨ ∃ i ok name, s' = s.served i c
      (.childAdded (friendRequestsWith a c.uid) (.removeInner c.uid a name)) ok := by
  cases h with
  | owner h =>
    rcases ack_step h hs hl with h | ⟨ok, h⟩
    · exact .inl (.owner h)
    · exact .inl (.ownerAdded h)
  | ownerAdded h =>
    rcases tasks_step h hs hl with h | ⟨i, e, app, cmds, hrun, rfl⟩
    · exact .inl (.ownerAdded h)
    · cases hrun
      exact .inl (.recipient (List.mem_append_right _ (mem_newWrites.2 ⟨rfl, List.mem_cons_self⟩)))
  | recipient h =>
    rcases ack_step h hs hl with h | ⟨ok, h⟩
    · exact .inl (.recipient h)
    · exact .inl (.recipientAdded h)
  | recipientAdded h =>
    rcases tasks_step h hs hl with h | ⟨i, e, app, cmds, hrun, rfl⟩
    · exact .inl (.recipientAdded h)
    · cases hrun
      exact .inl (.outer (List.mem_append_right _ (mem_newAsks.2 ⟨rfl, List.mem_cons_self⟩)))
  | outer h =>
    rcases asks_step h hs hl with h | ⟨i, ok, rfl⟩
    · exact .inl (.outer h)
    · -- the outer observer is told about the entries of the one who accepts
      refine .inl (.outerEvent (List.mem_append_right _ (List.mem_map.2 ⟨k, ?_, rfl⟩)))
      exact Tree.mem_children.2 ⟨_, hk, childKey_friendRequestsWith.2 rfl⟩
  | outerEvent h =>
    rcases tasks_step h hs hl with h | ⟨i, e, app, cmds, hrun, rfl⟩
    · exact .inl (.outerEvent h)
    · cases hrun
      exact .inl (.inner (List.mem_append_right _ (mem_newAsks.2 ⟨rfl, List.mem_cons_self⟩)))
  | inner h =>
    rcases asks_step h hs hl with h | ⟨i, ok, he⟩
    · exact .inl (.inner h)
    · exact .inr ⟨i, ok, _, he⟩

theorem joins_of_innerOf {c' : Client} {cb : Cb} (h : InnerOf u v cb) : cb.Joins u v c' := by
  cases cb with
  | removeInner t f name => exact h.symm.imp And.symm And.symm
  | requestSend | recipientAdded | userFriendAdded | recipientFriendAdded | removeOuter | peerAdded
  | entryAdded | recordRead | userRead => exact h.elim

/-- An inner observer of the pair that is asked for is the one of the accept. -/
theorem Alone.inner_asked (h : Alone s c a K) {G : Guard Loc Client Cb Unit App Action}
    (ht : Traced email G s) {c' : Client} {p : Path} {cb : Cb}
    (hask : (c', .childAdded p cb) ∈ s.asks) (hinner : InnerOf a c.uid cb) :
    ∃ name, c' = c ∧ p = friendRequestsWith a c.uid ∧ cb = .removeInner c.uid a name := by
  obtain ⟨hc, haccepts⟩ := h.callbacks c' cb (mem_pending.2 (.inr (.inl ⟨_, hask, rfl⟩)))
    (joins_of_innerOf hinner)
  cases cb with
  | removeInner t f name =>
    obtain ⟨rfl, rfl⟩ := haccepts
    exact ⟨name, hc, inner_issued (ht.origin.asks _ hask), rfl⟩
  | requestSend | recipientAdded | userFriendAdded | recipientFriendAdded | removeOuter | peerAdded
  | entryAdded | recordRead | userRead => exact hinner.elim

/-- Until an inner observer is attached the entries stay. When it is, it is told about them all. -/
theorem Waiting.step (h : Waiting s c a K) (halone : Alone s c a K)
    {G : Guard Loc Client Cb Unit App Action} (ht : Traced email G s) (hK : K.Nonempty)
    (hs : Transition (program email) s l s') (hl : Undisturbed c a s l) (log : List FEvent) :
    Waiting s' c a K ∨ ∀ k ∈ K, Announced s' log c a k := by
  have hlive : l ≠ .die c := by
    rintro rfl
    exact hl rfl
  by_cases hserve : ∃ i ok name, s' = s.served i c
      (.childAdded (friendRequestsWith a c.uid) (.removeInner c.uid a name)) ok
  · obtain ⟨i, ok, name, rfl⟩ := hserve
    refine .inr fun k hk => .inl ⟨name, List.mem_append_right _ (List.mem_map.2 ⟨k, ?_, rfl⟩)⟩
    exact Tree.mem_children.2 ⟨_, h.entries a c.uid (.inl ⟨rfl, rfl⟩) k hk,
      childKey_friendRequestsWith.2 rfl⟩
  -- a request for an inner observer of the pair is not served in this step
  have hnot : ∀ i c' p cb ok, (c', .childAdded p cb) ∈ s.asks →
      s' = s.served i c' (.childAdded p cb) ok → ¬ InnerOf a c.uid cb := by
    intro i c' p cb ok hask he hinner
    obtain ⟨name, rfl, rfl, rfl⟩ := halone.inner_asked ht hask hinner
    exact hserve ⟨i, ok, name, he⟩
  refine .inl ⟨fun x y hxy k hk => ?_, fun w hw x y hop hxy => ?_, fun o ho hinner => ?_,
    fun t htask hinner k hinput => ?_, ?_⟩
  · rcases mem_tree_step (h.entries x y hxy k hk) hs with hmem | ⟨i, w, p, hw, -, hop, hp, -⟩
    · exact hmem
    · have hi := ht.origin.writes w (List.mem_of_getElem? hw)
      rw [hop] at hi
      obtain ⟨rfl, -⟩ := Facts.removeIndex_issued hi hp
      exact absurd hxy (h.removals w (List.mem_of_getElem? hw) x y hop)
  · rcases mem_writes_step hw hs with hw | ⟨act, e, app, cmds, -, hact, hcmd, -⟩ |
      ⟨i, t, e, app, cmds, htask, hc, hrun, hcmd, -⟩
    · exact h.removals w hw x y hop hxy
    · rw [hop] at hcmd
      obtain ⟨t, e', k, he, -⟩ := innerOf_of_removal (issues_of_act hact hcmd) hxy
      cases he
    · rw [hop] at hcmd
      obtain ⟨t', e', k, he, hinner, hinput⟩ :=
        innerOf_of_removal (issues_of_run (e := e) hrun hcmd) hxy
      cases he
      exact h.events t htask hinner k hinput
  · rcases mem_childObs_step ho hs with ho | ⟨i, ok, hask, he⟩
    · exact h.observers o ho hinner
    · exact hnot i o.client o.path o.cb ok hask he hinner
  · -- a new event comes from an observer or from a request for one
    rcases mem_tasks_step htask hs with htask | ⟨i, c', ask, ok, hask, he, hans⟩ |
      ⟨i, w, -, -, hev | hev⟩ | ⟨w, -, ok, hack⟩
    · exact h.events t htask hinner k hinput
    · cases ask with
      | childAdded p cb =>
        obtain ⟨k', -, rfl⟩ := List.mem_map.1 hans
        exact hnot i c' p cb ok hask he hinner
      | value | single | putData | downloadURL =>
        cases List.mem_singleton.1 hans
        cases hinput
    · obtain ⟨o, ho, l, v, k', -, -, -, rfl⟩ := mem_childEvents.1 hev
      exact h.observers o ho hinner
    · obtain ⟨o, -, -, rfl⟩ := mem_valueEvents.1 hev
      cases hinput
    · obtain ⟨cb, -, rfl⟩ := mem_ack.1 hack
      cases hinput
  · obtain ⟨k, hk⟩ := hK
    refine (h.chain.step hs hlive (h.entries c.uid a (.inr ⟨rfl, rfl⟩) k hk)).resolve_right hserve

theorem Announced.step {log : List FEvent} {ev : FEvent} {k : String} (h : Announced s log c a k)
    (hs : Transition (program email) s l s') (hl : l ≠ .die c) (hlog : s'.log = ev :: s.log) :
    Announced s' (ev :: log) c a k := by
  rcases h with ⟨name, h⟩ | h
  · rcases tasks_step h hs hl with h | ⟨i, e, app, cmds, -, rfl⟩
    · exact .inl ⟨name, h⟩
    · cases (List.cons.inj hlog).1
      exact .inr (List.mem_filterMap.2 ⟨_, List.mem_cons_self, by simp [completedKey]⟩)
  · exact .inr (((List.sublist_cons_self ev log).filterMap _).subset h)

/-! ## What a completion removes -/

/-- What the event for `k` removes. -/
def clearedPaths (c : Client) (a : UID) (k : String) : List Path :=
  [["friend_request", k], friendRequestsWith c.uid a, friendRequestsWith a c.uid]

/-- Once the accept was completed for `k`, what the event removes is gone or waits to be removed. -/
def Cleared (s : FState) (log : List FEvent) (c : Client) (a : UID) (K : Finset String) : Prop :=
  ∀ k ∈ K, k ∈ completedKeys c a log → ∀ p ∈ clearedPaths c a k,
    (∀ l : Loc, p <+: path l → l ∉ s.tree) ∨ ⟨c, .remove p, none⟩ ∈ s.writes

/-- Nothing that waits adds to what a completion removes. -/
theorem Alone.not_adds (h : Alone s c a K) {k : String} (hk : k ∈ K) {p : Path}
    (hp : p ∈ clearedPaths c a k) {l : Loc} (hl : p <+: path l) :
    ∀ w ∈ s.writes, ∀ v, w.op ≠ .update l v := by
  intro w hw v hop
  simp only [clearedPaths, List.mem_cons, List.not_mem_nil, or_false] at hp
  rcases hp with rfl | rfl | rfl
  · obtain rfl := friendRequest_below.1 hl
    exact h.records w hw k hk v hop
  · obtain ⟨k', rfl⟩ := friendRequestsWith_below.1 hl
    exact h.entries w hw _ _ k' v hop (.inr ⟨rfl, rfl⟩)
  · obtain ⟨k', rfl⟩ := friendRequestsWith_below.1 hl
    exact h.entries w hw _ _ k' v hop (.inl ⟨rfl, rfl⟩)

theorem Cleared.step {log : List FEvent} {ev : FEvent} (h : Cleared s log c a K)
    (halone : Alone s c a K) (hs : Transition (program email) s l s') (hl : Undisturbed c a s l)
    (hlog : s'.log = ev :: s.log) : Cleared s' (ev :: log) c a K := by
  intro k hk hdone p hp
  have hlive : l ≠ .die c := by
    rintro rfl
    exact hl rfl
  have haccepts : ∀ i, l ≠ .commit i false := by
    rintro i rfl
    cases hl
  obtain ⟨ev', hev', hkey⟩ := List.mem_filterMap.1 hdone
  rcases List.mem_cons.1 hev' with rfl | hev'
  · -- the event that runs now removes all three
    cases hs with
    | @run i e t app cmds _ _ hrun =>
      obtain rfl := (List.cons.inj hlog).1
      unfold completedKey at hkey
      split at hkey
      · next he =>
        split at hkey
        · next hc =>
          obtain ⟨rfl, rfl, rfl⟩ := hc
          cases hkey
          cases he
          cases hrun
          refine .inr (List.mem_append_right _ (mem_newWrites.2 ⟨rfl, ?_⟩))
          simpa [removeInner, clearedPaths] using hp
        · cases hkey
      · cases hkey
    | press | apply | reject | serve | die =>
      obtain rfl := (List.cons.inj hlog).1
      cases hkey
  · rcases h k hk (List.mem_filterMap.2 ⟨ev', hev', hkey⟩) p hp with hgone | hw
    · exact .inl fun l₀ hl₀ =>
        not_mem_tree_step (hgone l₀ hl₀) (halone.not_adds hk hp hl₀) hs
    · exact (removal_step_of_accepts hw hs hlive haccepts).symm

/-! ## One accept -/

/-- The accept of `a` on `c` has cleared the requests `K`, and completed once. -/
structure ClearsOnce (s₂ s₃ : FState) (c : Client) (a : UID) (K : Finset String) : Prop where
  records : ∀ k ∈ K, .friendRequest k ∉ s₃.tree
  index : s₃.tree.children (friendRequestsWith c.uid a) = []
  senderIndex : s₃.tree.children (friendRequestsWith a c.uid) = []
  once : (completedKeys c a (since s₂ s₃)).length = 1

theorem children_eq_nil_of_gone {t : Realtime.Tree Loc} {p : Path}
    (h : ∀ l : Loc, p <+: path l → l ∉ t) : t.children p = [] := by
  refine List.eq_nil_iff_forall_not_mem.2 fun k hk => ?_
  obtain ⟨l, hl, hkey⟩ := Tree.mem_children.1 hk
  exact h l (Tree.prefix_of_childKey hkey) hl

section Accept

variable {ok : FState → FLabel → Prop} {peer : UserParams} {e : Env} (hs : Start s₀)
  (h₁ : Reaches (step (program email)) ok s₀ s₁) (hk : Outstanding s₁ a c.uid K)
  (hK : K.Nonempty) (ha : peer.uid = a)
  (hpress : step (program email) s₁ (.press (.addUsertoFriendsBtnPressed c peer) e) = some s₂)
include hk ha hpress

/-- The press starts the chain, and the entries are all there. -/
theorem waiting_of_press : Waiting s₂ c a K := by
  cases transition_of_step hpress with
  | press hkey hact =>
    rw [program_act] at hact
    cases pressed_of_act hact with
    | accept =>
      subst ha
      refine ⟨fun x y hxy k => (hk.indexed x y hxy k).2, fun w hw x y hop => ?_,
        fun o ho hinner => ?_, fun t htask hinner => ?_, ?_⟩
      · rcases List.mem_append.1 hw with hw | hw
        · exact hk.removals w hw x y hop
        · obtain ⟨-, hcmd⟩ := mem_newWrites.1 hw
          rw [hop] at hcmd
          simp [addUsertoFriendsBtnPressed, friendIntoDB, userFriendIntoDB] at hcmd
      · have hcb : o.cb ∈ s₁.pending o.client :=
          mem_pending.2 (.inr (.inr (.inr (.inl ⟨o.path, ho⟩))))
        exact absurd (joins_of_innerOf hinner) (hk.callbacks o.client o.cb hcb)
      · exact absurd (joins_of_innerOf hinner)
          (hk.callbacks t.client t.cb (mem_pending_of_task htask))
      · exact .owner (List.mem_append_right _ (mem_newWrites.2
          ⟨rfl, List.mem_cons_of_mem _ List.mem_cons_self⟩))

variable (h₂ : Reaches (step (program email)) (Undisturbed c a) s₂ s₃)
include hs h₁ hK h₂

theorem announced_and_cleared :
    (Waiting s₃ c a K ∨ ∀ k ∈ K, Announced s₃ (since s₂ s₃) c a k) ∧
      Cleared s₃ (since s₂ s₃) c a K := by
  have halone := hk.alone hs h₁ ha hpress
  have hrun : Reaches (step (program email)) (fun s l => ok s l ∨ True) s₀ s₂ :=
    (h₁.mono fun _ _ => .inl).tail (.inr trivial) hpress
  refine h₂.invariant_of_reached (I := fun s =>
    (Waiting s c a K ∨ ∀ k ∈ K, Announced s (since s₂ s) c a k) ∧ Cleared s (since s₂ s) c a K)
    ⟨.inl (waiting_of_press hk ha hpress), ?_⟩ fun {t l u} ht ih hl hstep => ?_
  · intro k _ hdone
    simp [completedKeys] at hdone
  · have hs' := transition_of_step hstep
    have htraced := traced_of_reaches hs (hrun.trans (ht.mono fun _ _ _ => .inr trivial))
    obtain ⟨ev, hlog, hsince⟩ := since_step ht hs'
    rw [hsince]
    refine ⟨?_, ih.2.step (halone.of_reaches ht) hs' hl hlog⟩
    rcases ih.1 with hwait | hann
    · exact hwait.step (halone.of_reaches ht) htraced hK hs' hl _
    · refine .inr fun k hmem => (hann k hmem).step hs' (fun he => ?_) hlog
      subst he
      exact hl rfl

/-- One accept clears everything that is pending between the two, whatever else goes on, and is
completed at least once and at most `n` times for each of the `n` requests. -/
theorem clears_of_accept (hq : s₃.Quiescent) :
    (∀ k ∈ K, .friendRequest k ∉ s₃.tree) ∧
      s₃.tree.children (friendRequestsWith c.uid a) = [] ∧
      s₃.tree.children (friendRequestsWith a c.uid) = [] ∧
      K.card ≤ (completedKeys c a (since s₂ s₃)).length ∧
      (completedKeys c a (since s₂ s₃)).length ≤ K.card * K.card := by
  obtain ⟨hann, hcleared⟩ := announced_and_cleared hs h₁ hk hK ha hpress h₂
  -- when nothing is in flight, every request has completed the accept
  have hdone : ∀ k ∈ K, k ∈ completedKeys c a (since s₂ s₃) := by
    intro k hmem
    rcases hann with hwait | hann
    · cases hwait.chain with
      | owner h | recipient h => simp [hq.writes] at h
      | outer h | inner h => simp [hq.asks] at h
      | ownerAdded h | recipientAdded h | outerEvent h => simp [hq.tasks] at h
    · rcases hann k hmem with ⟨name, h⟩ | h
      · simp [hq.tasks] at h
      · exact h
  have hgone : ∀ k ∈ K, ∀ p ∈ clearedPaths c a k, ∀ l : Loc, p <+: path l → l ∉ s₃.tree := by
    intro k hmem p hp
    rcases hcleared k hmem (hdone k hmem) p hp with hgone | hw
    · exact hgone
    · simp [hq.writes] at hw
  obtain ⟨k₀, hk₀⟩ := hK
  refine ⟨fun k hmem => ?_, ?_, ?_, ?_, completedKeys_length_le hs h₁ hk ha hpress h₂⟩
  · exact hgone k hmem ["friend_request", k] (by simp [clearedPaths]) _ (friendRequest_below.2 rfl)
  · exact children_eq_nil_of_gone (hgone k₀ hk₀ _ (by simp [clearedPaths]))
  · exact children_eq_nil_of_gone (hgone k₀ hk₀ _ (by simp [clearedPaths]))
  · refine le_trans (Finset.card_le_card fun k hmem => ?_) (List.toFinset_card_le _)
    exact List.mem_toFinset.2 (hdone k hmem)

/-- One accept clears everything and is completed once exactly when one request was pending. -/
theorem clearsOnce_iff (hq : s₃.Quiescent) : ClearsOnce s₂ s₃ c a K ↔ K.card = 1 := by
  obtain ⟨hrecords, hindex, hsender, hlower, hupper⟩ :=
    clears_of_accept hs h₁ hk hK ha hpress h₂ hq
  constructor
  · intro h
    have := hK.card_pos
    have := h.once
    omega
  · intro hone
    rw [hone] at hlower hupper
    exact ⟨hrecords, hindex, hsender, le_antisymm hupper hlower⟩

end Accept

/-! ## Bob accepts Alice -/

theorem accepting_undisturbed :
    (exec (step (program mail)) (Undisturbed bob "alice") pressed (accepting true)).isSome =
      true := by
  decide +kernel

/-- Bob has accepted, and every write was accepted too. -/
def cleared : FState :=
  (exec (step (program mail)) (Undisturbed bob "alice") pressed (accepting true)).get
    accepting_undisturbed

theorem asked_outstanding : Outstanding asked "alice" "bob" {"k"} := by
  refine .of_keys (traced_of_reaches start_start asked_reached) ⟨rfl, rfl, rfl⟩ ?_ ?_ ?_
  · decide +kernel
  · decide +kernel
  · decide +kernel

theorem clearsOnce_iff_cleared : ClearsOnce pressed cleared bob "alice" {"k"} ↔
    ({"k"} : Finset String).card = 1 :=
  clearsOnce_iff start_start asked_reached asked_outstanding (Finset.singleton_nonempty _) rfl
    (Option.some_get _).symm (.of_exec (Option.some_get _).symm) ⟨rfl, rfl, rfl⟩

/-! ## Alice has sent two requests -/

/-- Alice sends Bob a second request. -/
def askingAgain : List FLabel := [
  .press (.sendFrienRequestBtnPressed alice (found "bob")) ⟨"k2", 10⟩, .commit 0 true,
  .commit 0 true, .run 0 ⟨"a3", 11⟩, .commit 0 true, .run 0 ⟨"a4", 12⟩, .run 0 ⟨"b5", 13⟩,
  .serve 0 true, .run 0 ⟨"b6", 14⟩, .serve 0 true, .run 0 ⟨"b7", 15⟩]

theorem askingAgain_runs :
    (exec (step (program mail)) Succeeds asked askingAgain).isSome = true := by
  decide +kernel

def askedAgain : FState := (exec (step (program mail)) Succeeds asked askingAgain).get askingAgain_runs

theorem askedAgain_reached : Reaches (step (program mail)) Succeeds start askedAgain :=
  asked_reached.trans (.of_exec (Option.some_get _).symm)

theorem askedAgain_outstanding : Outstanding askedAgain "alice" "bob" {"k", "k2"} := by
  refine .of_keys (traced_of_reaches start_start askedAgain_reached) ⟨rfl, rfl, rfl⟩ ?_ ?_ ?_
  · decide +kernel
  · decide +kernel
  · decide +kernel

/-- Bob presses the button once. -/
def acceptOnce : FLabel := .press (.addUsertoFriendsBtnPressed bob (found "alice")) ⟨"f", 16⟩

theorem acceptOnce_steps : (step (program mail) askedAgain acceptOnce).isSome = true := by
  decide +kernel

def pressedOnce : FState := (step (program mail) askedAgain acceptOnce).get acceptOnce_steps

/-- The outer observer is told of both requests, and the first inner one too. -/
def acceptingBoth : List FLabel := [
  .commit 0 true, .commit 0 true, .run 0 ⟨"f1", 17⟩, .commit 0 true, .run 0 ⟨"f2", 18⟩,
  .serve 0 true, .run 0 ⟨"f3", 19⟩, .run 0 ⟨"f4", 20⟩, .serve 0 true, .run 0 ⟨"f5", 21⟩,
  .commit 0 true, .commit 0 true, .commit 0 true, .run 0 ⟨"f6", 22⟩, .commit 0 true,
  .commit 0 true, .commit 0 true, .run 0 ⟨"f7", 23⟩, .run 0 ⟨"f8", 24⟩, .serve 0 true]

theorem acceptingBoth_runs :
    (exec (step (program mail)) (Undisturbed bob "alice") pressedOnce acceptingBoth).isSome =
      true := by
  decide +kernel

def clearedBoth : FState :=
  (exec (step (program mail)) (Undisturbed bob "alice") pressedOnce acceptingBoth).get
    acceptingBoth_runs

/-- One accept clears everything that is pending and is completed once. -/
def AcceptsClearOnce (email : UID → String) : Prop :=
  ∀ s₀ s₁ s₂ s₃ c peer e K, Start s₀ → Reaches (step (program email)) Succeeds s₀ s₁ →
    Outstanding s₁ peer.uid c.uid K → K.Nonempty →
    step (program email) s₁ (.press (.addUsertoFriendsBtnPressed c peer) e) = some s₂ →
    Reaches (step (program email)) (Undisturbed c peer.uid) s₂ s₃ → s₃.Quiescent →
    ClearsOnce s₂ s₃ c peer.uid K

/-- With two requests pending the accept is completed twice, and its alert shown twice. -/
theorem not_acceptsClearOnce : ¬ AcceptsClearOnce mail := by
  intro h
  have honce := (h start askedAgain pressedOnce clearedBoth bob (found "alice") ⟨"f", 16⟩
    {"k", "k2"} start_start askedAgain_reached askedAgain_outstanding ⟨"k", by decide⟩
    (Option.some_get _).symm (.of_exec (Option.some_get _).symm) ⟨rfl, rfl, rfl⟩).once
  revert honce
  decide +kernel

end FLChat.Friends
