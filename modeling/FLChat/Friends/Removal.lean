import FLChat.Friends.Requests
import FLChat.Realtime.Counting

/-!
# What an accept removes

An accept leaves observers behind: an outer one on the accepting side's index and, for each event of
it, an inner one on the sender's. Neither is ever removed, and an event of an inner observer removes
a record and both index subtrees. Two invariants say what that comes to. The entries of a request
stay as they were written until an inner observer is told about it (`KeptOrTold`), and once one has
run for it, its record is gone or on its way out (`RecordCleared`). Hence no request between two
users survives an accept between them (`record_gone`).
-/

namespace FLChat.Friends

open Realtime

variable {email : UID → String} {G : Guard Loc Client Cb Unit App Action} {s₀ s s' : FState}
  {l : FLabel}

/-! ## Entries stay until an inner observer knows of them -/

/-- The entries of the request `k` between `u` and `v` are there as far as they were written. -/
def EntriesKept (s : FState) (u v : UID) (k : String) : Prop :=
  (Written s.log (.userFriendRequest u v k) → Loc.userFriendRequest u v k ∈ s.tree) ∧
    (Written s.log (.userFriendRequest v u k) → Loc.userFriendRequest v u k ∈ s.tree)

/-- An inner observer of the pair is told about `k`, as soon as it is written where it watches. -/
def Told (s : FState) (u v : UID) (k : String) : Prop :=
  ∃ c t f name, ⟨c, friendRequestsWith f t, .removeInner t f name⟩ ∈ s.childObs ∧
    (f = u ∧ t = v ∨ f = v ∧ t = u) ∧
    (Written s.log (.userFriendRequest f t k) → Due s ⟨c, .removeInner t f name, .childAdded k⟩)

def KeptOrTold (s : FState) : Prop := ∀ u v k, EntriesKept s u v k ∨ Told s u v k

/-- A live inner observer is told about an entry that is there. -/
theorem due_of_mem (h : Covered s) {c : Client} {t f : UID} {name k : String}
    (ho : ⟨c, friendRequestsWith f t, .removeInner t f name⟩ ∈ s.childObs)
    (hk : Loc.userFriendRequest f t k ∈ s.tree) :
    Due s ⟨c, .removeInner t f name, .childAdded k⟩ :=
  h _ ho k (Tree.mem_children.2 ⟨_, hk, childKey_friendRequestsWith.2 rfl⟩)

/-- A step that writes an entry puts it into the tree. -/
theorem mem_of_newly_written {l₀ : Loc} (hs : Transition (program email) s l s')
    (hkept : Written s.log l₀ → l₀ ∈ s'.tree) (hw : Written s'.log l₀) : l₀ ∈ s'.tree := by
  rcases hw.cases hs with hw | ⟨i, w, v, -, -, hop, rfl⟩
  · exact hkept hw
  · rw [State.applied_tree, hop]
    exact Tree.mem_update.2 (.inl rfl)

theorem KeptOrTold.step (h : KeptOrTold s) (hf : Facts email G s) (hf' : Facts email G s')
    (hs : Transition (program email) s l s') (hl : ∀ c, l ≠ .die c) : KeptOrTold s' := by
  intro u v k
  -- a removal of one of the subtrees comes from an inner observer, which knows what is there
  have told : ∀ i w p c' t f name k', s.writes[i]? = some w → w.op = .remove p →
      s' = s.applied i w → Due s ⟨c', .removeInner t f name, .childAdded k'⟩ →
      (f = u ∧ t = v ∨ f = v ∧ t = u) → EntriesKept s u v k → Told s' u v k := by
    intro i w p c' t f name k' hw hop hs' hdue hpair hkept
    have ho := (hf.observer_of_removeInner hdue).1
    refine ⟨c', t, f, name, childObs_step ho hs (hl _), hpair, fun hwritten => ?_⟩
    have hwritten : Written s.log (.userFriendRequest f t k) := by
      rcases hwritten.cases hs with hwr | ⟨j, w', n, hw', -, hop', hs''⟩
      · exact hwr
      · have hlog := congrArg State.log (hs'.symm.trans hs'')
        injection (List.cons.inj hlog).1 with _ he _
        rw [hop, hop'] at he
        cases he
    have hmem : Loc.userFriendRequest f t k ∈ s.tree := by
      rcases hpair with ⟨rfl, rfl⟩ | ⟨rfl, rfl⟩
      · exact hkept.1 hwritten
      · exact hkept.2 hwritten
    exact (due_of_mem hf.covered ho hmem).step hs (hl _)
  rcases h u v k with hkept | ⟨c, t, f, name, ho, hpair, hdue⟩
  · -- an entry that is there stays, or the removal that takes it is known to an inner observer
    have entry : ∀ a b, (a = u ∧ b = v ∨ a = v ∧ b = u) →
        (Written s.log (.userFriendRequest a b k) → Loc.userFriendRequest a b k ∈ s.tree) →
        (Written s'.log (.userFriendRequest a b k) → Loc.userFriendRequest a b k ∈ s'.tree) ∨
          Told s' u v k := by
      intro a b hab hmem
      by_cases hw : Written s.log (.userFriendRequest a b k)
      · rcases mem_tree_step (hmem hw) hs with hmem' | ⟨i, w, p, hw, -, hop, hp, hs'⟩
        · exact .inl fun _ => hmem'
        · have hi := hf.origin.writes w (List.mem_of_getElem? hw)
          rw [hop] at hi
          obtain ⟨-, t, f, name, k', e, hr, hft⟩ := Facts.removeIndex_issued hi hp
          have hpair : f = u ∧ t = v ∨ f = v ∧ t = u := by
            rcases hab with ⟨rfl, rfl⟩ | ⟨rfl, rfl⟩
            · exact hft
            · exact hft.symm
          exact .inr (told i w p w.client t f name k' hw hop hs' (.inr ⟨e, hr⟩) hpair hkept)
      · exact .inl fun hw' => mem_of_newly_written hs (fun h => absurd h hw) hw'
    rcases entry u v (.inl ⟨rfl, rfl⟩) hkept.1 with h₁ | ht
    · rcases entry v u (.inr ⟨rfl, rfl⟩) hkept.2 with h₂ | ht
      · exact .inl ⟨h₁, h₂⟩
      · exact .inr ht
    · exact .inr ht
  · -- the observer that is told stays told, and learns of an entry that is written now
    refine .inr ⟨c, t, f, name, childObs_step ho hs (hl _), hpair, fun hw => ?_⟩
    rcases hw.cases hs with hw | ⟨i, w, n, -, -, hop, rfl⟩
    · exact (hdue hw).step hs (hl _)
    · refine due_of_mem hf'.covered (childObs_step ho hs (hl _)) ?_
      rw [State.applied_tree, hop]
      exact Tree.mem_update.2 (.inl rfl)

theorem keptOrTold_of_reaches {ok : FState → FLabel → Prop} (hs : Start s₀)
    (hok : ∀ s l, ok s l → Proceeds s l) (h : Reaches (step (program email)) ok s₀ s) :
    KeptOrTold s := by
  refine h.invariant_of_reached (I := KeptOrTold) (fun u v k => .inl ?_)
    fun {t l u} ht ih hl hstep => ?_
  · constructor <;> rintro ⟨c, n, hr⟩ <;> simp [hs.initial.log] at hr
  · exact ih.step (facts_of_reaches hs hok ht) (facts_of_reaches hs hok (ht.tail hl hstep))
      (transition_of_step hstep) fun c e => by
        subst e
        exact hok t _ hl

/-! ## A record is written before its entries -/

/-- The earlier write is not an entry of the press whose record the later one writes. -/
def RecordNotAfter (w w' : Write Loc Client Cb) : Prop :=
  ∀ l n r d, w.op = .update l n → w'.op = .update r d → l.isRecord = false → r.isRecord = true →
    l.key ≠ r.key

theorem recordNotAfter_step (h : s.writes.Pairwise RecordNotAfter) (hf : Traced email G s)
    (hs : Transition (program email) s l s') : s'.writes.Pairwise RecordNotAfter := by
  refine pairwise_step h hs (fun a e c app cmds hkey hact => ⟨?_, fun w hw w' hw' => ?_⟩)
    fun t ht e hkey app cmds hrun => ?_
  · cases pressed_of_act hact with
    | send | accept =>
      refine List.pairwise_cons.2 ⟨fun w' _ => ?_, List.pairwise_singleton _ _⟩
      intro l n r d hop _ hl
      cases hop
      cases hl
    | @search c list query => cases list <;> exact List.Pairwise.nil
    | select | load => exact List.Pairwise.nil
  · -- a new record has a fresh key, which no waiting entry can have
    intro l n r d hop hop' _ hr hlr
    obtain ⟨rfl, hcmd⟩ := mem_newWrites.1 hw'
    have hold := hf.origin.writes w hw
    rw [hop] at hold
    have hpressed := hf.pressedBy_of_update hold
    rw [hop'] at hcmd
    generalize w'.completion = cb at hcmd
    cases issues_of_act hact hcmd with
    | request | friend => exact hf.not_pressedBy_of_fresh hkey (hlr ▸ hpressed)
    | requestIndex | friendIndex => cases hr
  · -- no callback writes a record
    obtain ⟨c, cb, input⟩ := t
    have none : ∀ w' ∈ newWrites c cmds, ∀ r d, w'.op = .update r d → r.isRecord = false := by
      intro w' hw' r d hop
      obtain ⟨-, hcmd⟩ := mem_newWrites.1 hw'
      rw [hop] at hcmd
      generalize w'.completion = cb' at hcmd
      cases issues_of_run hrun hcmd <;> rfl
    have later : ∀ w, ∀ w' ∈ newWrites c cmds, RecordNotAfter w w' := by
      intro w w' hw' l n r d _ hop' _ hr
      rw [none w' hw' r d hop'] at hr
      cases hr
    exact ⟨List.pairwise_of_forall_mem_list fun w _ w' hw' => later w w' hw',
      fun w _ w' hw' => later w w' hw'⟩

/-- Once a write of an entry was answered, nothing waits that writes its record. -/
def RecordSettled (s : FState) : Prop :=
  ∀ l, Answered s.log l → l.isRecord = false → ∀ w ∈ s.writes, ∀ r d, w.op = .update r d →
    r.isRecord = true → r.key ≠ l.key

theorem RecordSettled.step (h : RecordSettled s) (hf : Traced email G s)
    (hbefore : s.writes.Pairwise RecordNotAfter) (hs : Transition (program email) s l s') :
    RecordSettled s' := by
  intro l₀ hanswered hl₀ w hw r d hop hr hkey
  rcases hanswered.cases hs with hold | ⟨i, w₀, n, hw₀, hfirst, hop₀, hwrites⟩
  · rcases mem_writes_step hw hs with hw | ⟨a, e, app, cmds, hfresh, hact, hcmd, -⟩ |
      ⟨i, t, e, app, cmds, ht, hc, hrun, hcmd, -⟩
    · exact h l₀ hold hl₀ w hw r d hop hr hkey
    · obtain ⟨c', n, ok, hres⟩ := hold
      obtain ⟨cb', hi⟩ := hf.origin.log _ hres
      have hpressed := hf.pressedBy_of_update hi
      rw [hop] at hcmd
      generalize w.completion = cb at hcmd
      cases issues_of_act hact hcmd with
      | request | friend => exact hf.not_pressedBy_of_fresh hfresh (hkey ▸ hpressed)
      | requestIndex | friendIndex => cases hr
    · obtain ⟨c, cb, input⟩ := t
      rw [hop] at hcmd
      generalize w.completion = cb' at hcmd
      cases issues_of_run hrun hcmd <;> cases hr
  · -- the entry is answered now: the same client issued its record before it
    rw [hwrites] at hw
    have hi₀ := hf.origin.writes w₀ (List.mem_of_getElem? hw₀)
    have hi := hf.origin.writes w (List.mem_of_mem_eraseIdx hw)
    rw [hop₀] at hi₀
    rw [hop] at hi
    have hclient := hf.pressed_unique (hf.pressedBy_of_update hi)
      (hkey ▸ hf.pressedBy_of_update hi₀)
    exact before_of_commit hbefore hw₀ hfirst hw hclient _ _ _ _ hop₀ hop hl₀ hr hkey.symm

theorem recordSettled_of_reaches {ok : FState → FLabel → Prop} (hs : Start s₀)
    (h : Reaches (step (program email)) ok s₀ s) : RecordSettled s := by
  have hboth : s.writes.Pairwise RecordNotAfter ∧ RecordSettled s := by
    refine h.invariant_of_reached (I := fun s => s.writes.Pairwise RecordNotAfter ∧ RecordSettled s)
      ⟨?_, ?_⟩ fun ht ih hl hstep => ?_
    · rw [hs.initial.writes]
      exact List.Pairwise.nil
    · rintro l - - w hw
      rw [hs.initial.writes] at hw
      cases hw
    · have hf := traced_of_reaches hs ht
      exact ⟨recordNotAfter_step ih.1 hf (transition_of_step hstep),
        ih.2.step hf ih.1 (transition_of_step hstep)⟩
  exact hboth.2

/-! ## A record that an inner observer was told about goes -/

/-- Where an inner observer has run for `k`, the record is gone or waits to be removed. -/
def RecordCleared (s : FState) : Prop :=
  ∀ c t f name k e, .ran ⟨c, .removeInner t f name, .childAdded k⟩ e ∈ s.log →
    Loc.friendRequest k ∉ s.tree ∨ ∃ w ∈ s.writes, w.op = .remove ["friend_request", k]

theorem RecordCleared.step (h : RecordCleared s) (hf : Facts email G s) (hf' : Facts email G s')
    (hset : RecordSettled s) (hs : Transition (program email) s l s') (hl : ∀ c, l ≠ .die c) :
    RecordCleared s' := by
  intro c t f name k e hev
  have old : .ran ⟨c, .removeInner t f name, .childAdded k⟩ e ∈ s.log →
      Loc.friendRequest k ∉ s'.tree ∨ ∃ w ∈ s'.writes, w.op = .remove ["friend_request", k] := by
    intro hev
    have hwritten := (hf.observer_of_removeInner (.inr ⟨e, hev⟩)).2
    rcases h c t f name k e hev with hgone | ⟨w, hw, hop⟩
    · -- nothing writes the record again
      exact .inl (not_mem_tree_step hgone
        (fun w hw d hop => hset _ hwritten.answered rfl w hw _ d hop rfl rfl) hs)
    · rcases removal_step hw hop (friendRequest_below.2 rfl) hs (hl _) with hw | hrej | ⟨hgone, -⟩
      · exact .inr ⟨w, hw, hop⟩
      · have hfriendship := hf'.rejected _ _ hrej
        rw [hop] at hfriendship
        cases hfriendship
      · exact .inl hgone
  cases hs with
  | @run i e' task app cmds hkey htask hrun =>
    rcases List.mem_cons.1 hev with hev | hev
    · cases hev
      cases hrun
      exact .inr ⟨⟨c, .remove ["friend_request", k], none⟩,
        List.mem_append_right _ (mem_newWrites.2 ⟨rfl, List.mem_cons_self⟩), rfl⟩
    · exact old hev
  | press | apply | reject | serve | die =>
    rcases List.mem_cons.1 hev with hev | hev
    · cases hev
    · exact old hev

theorem recordCleared_of_reaches {ok : FState → FLabel → Prop} (hs : Start s₀)
    (hok : ∀ s l, ok s l → Proceeds s l) (h : Reaches (step (program email)) ok s₀ s) :
    RecordCleared s := by
  refine h.invariant_of_reached (I := RecordCleared) ?_ fun {t l u} ht ih hl hstep => ?_
  · intro c t f name k e hev
    simp [hs.initial.log] at hev
  · exact ih.step (facts_of_reaches hs hok ht) (facts_of_reaches hs hok (ht.tail hl hstep))
      (recordSettled_of_reaches hs ht) (transition_of_step hstep) fun c e => by
        subst e
        exact hok t _ hl

/-! ## When nothing is in flight -/

theorem due_of_told {u v : UID} {k : String} (ht : Told s u v k)
    (hw : Written s.log (.userFriendRequest u v k)) (hw' : Written s.log (.userFriendRequest v u k)) :
    ∃ c t f name, Due s ⟨c, .removeInner t f name, .childAdded k⟩ ∧
      (f = u ∧ t = v ∨ f = v ∧ t = u) := by
  obtain ⟨c, t, f, name, -, hpair, hdue⟩ := ht
  refine ⟨c, t, f, name, hdue ?_, hpair⟩
  rcases hpair with ⟨rfl, rfl⟩ | ⟨rfl, rfl⟩
  · exact hw
  · exact hw'

section Quiescent

variable (hf : Facts email G s) (hq : s.Quiescent)
include hf hq

theorem written_of_progress {c : Client} {l₀ : Loc} {v : Val l₀} {cb : Option Cb}
    (hp : Progress s c (.write (.update l₀ v) cb))
    (hfriend : Friendship (.update l₀ v) = false) :
    Written s.log l₀ ∧ ∀ cb' ∈ cb, ∃ e, .ran ⟨c, cb', .acked true⟩ e ∈ s.log := by
  obtain ⟨ok, hr, hran⟩ := hp.write_of_quiescent hq
  cases ok with
  | true => exact ⟨⟨c, v, hr⟩, hran⟩
  | false =>
    have := hf.rejected _ _ hr
    rw [hfriend] at this
    cases this

/-- A request that was sent has been written in full. -/
theorem written_of_sent {f t : UID} {k : String} (hsent : Sent s.log f t k) :
    Written s.log (.friendRequest k) ∧ Written s.log (.userFriendRequest f t k) ∧
      Written s.log (.userFriendRequest t f k) := by
  obtain ⟨c, rfl, peer, e, hev, rfl, rfl⟩ := hsent
  obtain ⟨app, c', app', cmds, -, hact, hp⟩ := hf.progressed.pressed _ _ hev
  rw [program_act] at hact
  cases pressed_of_act hact with
  | send =>
    obtain ⟨hrecord, -⟩ := written_of_progress hf hq (hp _ List.mem_cons_self) rfl
    obtain ⟨hindex, hran⟩ :=
      written_of_progress hf hq (hp _ (List.mem_cons_of_mem _ List.mem_cons_self)) rfl
    obtain ⟨e', hran⟩ := hran _ rfl
    obtain ⟨app, -, hp⟩ := hf.progressed.ran _ _ hran
    obtain ⟨hrecipient, -⟩ := written_of_progress hf hq (hp _ List.mem_cons_self) rfl
    exact ⟨hrecord, hindex, hrecipient⟩

/-- After an accept an outer observer watches the index of the one who accepted. The completions
go on after an error, so this holds whichever of its writes were rejected. -/
theorem outer_of_accepted {f t : UID} {k : String} (hacc : Accepted s.log f t k) :
    ∃ c name, ⟨c, friendRequestsWith t f, .removeOuter t f name⟩ ∈ s.childObs := by
  obtain ⟨c, rfl, peer, e, hev, rfl, rfl⟩ := hacc
  obtain ⟨app, c', app', cmds, -, hact, hp⟩ := hf.progressed.pressed _ _ hev
  rw [program_act] at hact
  cases pressed_of_act hact with
  | accept =>
    obtain ⟨ok, -, hran⟩ :=
      (hp _ (List.mem_cons_of_mem _ List.mem_cons_self)).write_of_quiescent hq
    obtain ⟨e', hran⟩ := hran _ rfl
    obtain ⟨app, -, hp⟩ := hf.progressed.ran _ _ hran
    obtain ⟨ok', -, hran⟩ := (hp _ List.mem_cons_self).write_of_quiescent hq
    obtain ⟨e', hran⟩ := hran _ rfl
    obtain ⟨app, -, hp⟩ := hf.progressed.ran _ _ hran
    exact ⟨c, peer.name, (hp _ List.mem_cons_self).childAdded_of_quiescent hq⟩

/-- An event of an outer observer leaves an inner one. -/
theorem inner_of_outer {c : Client} {t f : UID} {name k : String}
    (hdue : Due s ⟨c, .removeOuter t f name, .childAdded k⟩) :
    ⟨c, friendRequestsWith f t, .removeInner t f name⟩ ∈ s.childObs := by
  obtain ⟨e, hran⟩ := hdue.ran_of_quiescent hq
  obtain ⟨app, -, hp⟩ := hf.progressed.ran _ _ hran
  exact (hp _ List.mem_cons_self).childAdded_of_quiescent hq

omit hf in
/-- The record of a request that an inner observer was told about is gone. -/
theorem record_gone_of_due (hclear : RecordCleared s) {c : Client} {t f : UID} {name k : String}
    (hdue : Due s ⟨c, .removeInner t f name, .childAdded k⟩) : Loc.friendRequest k ∉ s.tree := by
  obtain ⟨e, hran⟩ := hdue.ran_of_quiescent hq
  rcases hclear _ _ _ _ _ _ hran with hgone | ⟨w, hw, -⟩
  · exact hgone
  · rw [hq.writes] at hw
    cases hw

/-- No request between two users survives an accept between them. -/
theorem record_gone (hkept : KeptOrTold s) (hclear : RecordCleared s) {u v : UID} {k a : String}
    (hacc : Accepted s.log u v a) (hsent : Between s.log u v k) :
    Loc.friendRequest k ∉ s.tree := by
  have hwritten : Written s.log (.userFriendRequest u v k) ∧
      Written s.log (.userFriendRequest v u k) := by
    rcases hsent with hsent | hsent
    · exact (written_of_sent hf hq hsent).2
    · exact (written_of_sent hf hq hsent).2.symm
  rcases hkept u v k with ⟨hmem, hmem'⟩ | htold
  · -- nothing was removed, so both observers of the accept have been told
    obtain ⟨c, name, ho⟩ := outer_of_accepted hf hq hacc
    have houter : Due s ⟨c, .removeOuter v u name, .childAdded k⟩ :=
      hf.covered _ ho k (Tree.mem_children.2
        ⟨_, hmem' hwritten.2, childKey_friendRequestsWith.2 rfl⟩)
    have hi := inner_of_outer hf hq houter
    exact record_gone_of_due hq hclear (due_of_mem hf.covered hi (hmem hwritten.1))
  · obtain ⟨c, t, f, name, hdue, -⟩ := due_of_told htold hwritten.1 hwritten.2
    exact record_gone_of_due hq hclear hdue

end Quiescent

/-! ## A request and its accept -/

def mail (uid : UID) : String := uid ++ "@mail"

def alice : Client := ⟨"alice", 0⟩

def bob : Client := ⟨"bob", 0⟩

def profile (uid : UID) : User := { name := uid, email := mail uid }

/-- What the search for friends and the incoming list show of a user. -/
def found (uid : UID) : UserParams := ⟨uid, uid, "User image", mail uid, "User phone", true⟩

def start : FState where
  tree := ∅
  objects := fun _ => none
  writes := []
  asks := []
  tasks := []
  childObs := []
  valueObs := []
  issued := []
  log := []
  app := ⟨fun _ => {}, fun _ => [], fun _ _ => [], fun _ => none, []⟩

theorem start_start : Start start where
  initial := ⟨rfl, rfl, rfl, rfl, rfl, rfl⟩
  tree := rfl
  app := ⟨fun _ => rfl, fun _ _ => rfl, fun _ => rfl⟩

/-- Alice sends Bob a request, and he opens it in his incoming list. -/
def asking : List FLabel := [
  .press (.profileLoaded alice (profile "alice")) ⟨"p1", 0⟩,
  .press (.profileLoaded bob (profile "bob")) ⟨"p2", 0⟩,
  .press (.sendFrienRequestBtnPressed alice (found "bob")) ⟨"k", 1⟩, .commit 0 true,
  .commit 0 true, .run 0 ⟨"a1", 2⟩, .commit 0 true, .run 0 ⟨"a2", 3⟩,
  .press (.search bob .incoming "") ⟨"c", 4⟩, .serve 0 true, .run 0 ⟨"b1", 5⟩, .serve 0 true,
  .run 0 ⟨"b2", 6⟩, .serve 0 true, .run 0 ⟨"b3", 7⟩, .serve 0 true, .run 0 ⟨"b4", 8⟩,
  .press (.didSelectItemAt bob 0) ⟨"d", 9⟩]

theorem asking_runs : (exec (step (program mail)) Succeeds start asking).isSome = true := by
  decide +kernel

/-- Bob has the request in front of him. -/
def asked : FState := (exec (step (program mail)) Succeeds start asking).get asking_runs

theorem asked_reached : Reaches (step (program mail)) Succeeds start asked :=
  .of_exec (Option.some_get _).symm

end FLChat.Friends
