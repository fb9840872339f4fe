import FLChat.Friends.Removal
import FLChat.Friends.Once

/-!
# Accepting when writes are rejected

The completions of an accept print the error and go on, and the write of the friends record has no
completion at all. So the accept removes the request whatever the server did with its three writes
(`record_gone`), and it is all or nothing exactly when the server rejected none of them
(`allOrNothing_iff`).
-/

namespace FLChat.Friends

open Realtime

variable {email : UID → String} {G : Guard Loc Client Cb Unit App Action} {s₀ s s₁ s₂ s₃ : FState}

/-- What an accept of `f` by `t` writes under the key `a`. -/
def friendshipLocs (f t : UID) (a : String) : List Loc :=
  [.friends a, .userFriends t a, .userFriends f a]

/-- The friendship `a` is there, with its record and on both sides. -/
def Befriended (s : FState) (f t : UID) (a : String) : Prop := ∀ l ∈ friendshipLocs f t a, l ∈ s.tree

/-- The request `k` from `f` to `t` is there, with its record and on both sides. -/
structure Pending (s : FState) (f t : UID) (k : String) : Prop where
  record : ∃ d, s.tree.lookup (.friendRequest k) = some d ∧ d.fromId = f ∧ d.toId = t
  sender : Loc.userFriendRequest f t k ∈ s.tree
  recipient : Loc.userFriendRequest t f k ∈ s.tree

section Locs

variable {f t : UID} {a : String} {l : Loc}

theorem mem_friendshipLocs :
    l ∈ friendshipLocs f t a ↔ l = .friends a ∨ l = .userFriends t a ∨ l = .userFriends f a := by
  simp [friendshipLocs]

theorem friendship_of_mem (hl : l ∈ friendshipLocs f t a) (v : Val l) :
    Friendship (.update l v) = true := by
  rcases mem_friendshipLocs.1 hl with rfl | rfl | rfl <;> rfl

/-- Between two users every write of an accept has a location of its own. -/
theorem Facts.twoSided_of_accepted (hf : Facts email G s) (hacc : Accepted s.log f t a)
    (hne : f ≠ t) (hl : l ∈ friendshipLocs f t a) : TwoSided s.log l := by
  have hside : ∀ f' t', Accepted s.log f' t' a → f' ≠ t' := fun f' t' hacc' he => by
    obtain ⟨rfl, rfl⟩ := hf.accepted_unique hacc hacc'
    exact hne he
  rcases mem_friendshipLocs.1 hl with rfl | rfl | rfl
  · trivial
  · exact hside
  · exact hside

/-- When nothing is in flight, each write of an accept was answered. -/
theorem Facts.friendship_resolved (hf : Facts email G s) (hq : s.Quiescent)
    (hacc : Accepted s.log f t a) (hl : l ∈ friendshipLocs f t a) :
    ∃ c v ok, .resolved c (.update l v) ok ∈ s.log := by
  obtain ⟨c, rfl, peer, e, hev, rfl, rfl⟩ := hacc
  obtain ⟨app, c', app', cmds, -, hact, hp⟩ := hf.progressed.pressed _ _ hev
  rw [program_act] at hact
  cases pressed_of_act hact with
  | accept =>
    obtain ⟨ok, hrecord, -⟩ := (hp _ List.mem_cons_self).write_of_quiescent hq
    obtain ⟨ok', hindex, hran⟩ :=
      (hp _ (List.mem_cons_of_mem _ List.mem_cons_self)).write_of_quiescent hq
    obtain ⟨e', hran⟩ := hran _ rfl
    obtain ⟨app, -, hp⟩ := hf.progressed.ran _ _ hran
    obtain ⟨ok'', hrecipient, -⟩ := (hp _ List.mem_cons_self).write_of_quiescent hq
    rcases mem_friendshipLocs.1 hl with rfl | rfl | rfl
    · exact ⟨_, _, _, hrecord⟩
    · exact ⟨_, _, _, hindex⟩
    · exact ⟨_, _, _, hrecipient⟩

end Locs

/-- An accept of `f` by `t` makes the friendship or leaves the request pending. -/
def AllOrNothing (s : FState) (f t : UID) (k a : String) : Prop :=
  Befriended s f t a ∨ Pending s f t k

/-- Bob's accept of Alice's pending request is all or nothing, whatever else goes on, exactly when
the server rejects none of its three writes. -/
theorem allOrNothing_iff {f t : UID} {k : String} {c : Client} {peer : UserParams} {e : Env}
    (hs : Start s₀) (h₁ : Reaches (step (program email)) Proceeds s₀ s₁) (hk : Pending s₁ f t k)
    (hne : f ≠ t) (hf : peer.uid = f) (ht : c.uid = t)
    (hpress : step (program email) s₁ (.press (.addUsertoFriendsBtnPressed c peer) e) = some s₂)
    (h₂ : Reaches (step (program email)) Proceeds s₂ s₃) (hq : s₃.Quiescent) :
    AllOrNothing s₃ f t k e.key ↔ ∀ l ∈ friendshipLocs f t e.key, ¬ Rejected s₃.log l := by
  have hok : Proceeds s₁ (.press (.addUsertoFriendsBtnPressed c peer) e) := trivial
  have h := (h₁.tail hok hpress).trans h₂
  have hlog := (log_suffix ((Reaches.refl.tail hok hpress).trans h₂)).subset
  have hfacts := facts_of_reaches hs (fun _ _ => id) h
  have hacc : Accepted s₃.log f t e.key := by
    refine ⟨c, ht, peer, e, ?_, hf, rfl⟩
    refine (log_suffix h₂).subset ?_
    cases transition_of_step hpress with
    | press => exact List.mem_cons_self
  constructor
  · rintro (hmem | hpending) l hl ⟨c', v, hr⟩
    · obtain ⟨c'', v', hr'⟩ := hfacts.origin.tree l (hmem l hl)
      have := resolved_once hs (fun _ _ => id) h (hfacts.twoSided_of_accepted hacc hne hl) hr hr'
      cases this
    · -- the request cannot be pending any more
      have hfacts₁ := facts_of_reaches hs (fun _ _ => id) h₁
      have hbetween := (hfacts₁.between_of_written (hfacts₁.origin.tree _ hk.sender)).mono
        fun _ hev => hlog hev
      have hgone := record_gone hfacts hq (keptOrTold_of_reaches hs (fun _ _ => id) h)
        (recordCleared_of_reaches hs (fun _ _ => id) h) hacc hbetween
      obtain ⟨d, hd, -⟩ := hpending.record
      exact absurd (AList.lookup_isSome.1 (Option.isSome_of_eq_some hd)) hgone
  · intro hrej
    refine .inl fun l hl => ?_
    obtain ⟨c', v, ok, hr⟩ := hfacts.friendship_resolved hq hacc hl
    cases ok with
    | true => exact hfacts.friendship_kept (friendship_of_mem hl v) ⟨c', v, hr⟩
    | false => exact absurd ⟨c', v, hr⟩ (hrej l hl)

/-! ## Bob's accept of Alice -/

def acceptAlice : FLabel := .press (.addUsertoFriendsBtnPressed bob (found "alice")) ⟨"f", 10⟩

theorem acceptAlice_steps : (step (program mail) asked acceptAlice).isSome = true := by
  decide +kernel

def pressed : FState := (step (program mail) asked acceptAlice).get acceptAlice_steps

/-- The accept runs to its end. The server answers the write of the friends record with `ok`. -/
def accepting (ok : Bool) : List FLabel := [
  .commit 0 ok, .commit 0 true, .run 0 ⟨"f1", 11⟩, .commit 0 true, .run 0 ⟨"f2", 12⟩,
  .serve 0 true, .run 0 ⟨"f3", 13⟩, .serve 0 true, .run 0 ⟨"f4", 14⟩, .commit 0 true,
  .commit 0 true, .commit 0 true, .run 0 ⟨"f5", 15⟩]

theorem accepting_runs (ok : Bool) :
    (exec (step (program mail)) Proceeds pressed (accepting ok)).isSome = true := by
  cases ok <;> decide +kernel

def answered (ok : Bool) : FState :=
  (exec (step (program mail)) Proceeds pressed (accepting ok)).get (accepting_runs ok)

theorem answered_reached (ok : Bool) :
    Reaches (step (program mail)) Proceeds pressed (answered ok) :=
  .of_exec (Option.some_get _).symm

theorem answered_quiescent (ok : Bool) : (answered ok).Quiescent := by
  cases ok <;> exact ⟨rfl, rfl, rfl⟩

theorem asked_pending : Pending asked "alice" "bob" "k" where
  record := ⟨_, rfl, rfl, rfl⟩
  sender := by decide +kernel
  recipient := by decide +kernel

theorem allOrNothing_iff_answered :
    AllOrNothing (answered true) "alice" "bob" "k" "f" ↔
      ∀ l ∈ friendshipLocs "alice" "bob" "f", ¬ Rejected (answered true).log l :=
  allOrNothing_iff start_start (asked_reached.mono fun _ _ => Succeeds.proceeds) asked_pending
    (by decide) rfl rfl (Option.some_get _).symm (answered_reached true) (answered_quiescent true)

/-- Every accept of a pending request is all or nothing. -/
def AcceptsAreAtomic (email : UID → String) : Prop :=
  ∀ s₀ s₁ s₂ s₃ f t k c peer e, Start s₀ → Reaches (step (program email)) Proceeds s₀ s₁ →
    Pending s₁ f t k → f ≠ t → peer.uid = f → c.uid = t →
    step (program email) s₁ (.press (.addUsertoFriendsBtnPressed c peer) e) = some s₂ →
    Reaches (step (program email)) Proceeds s₂ s₃ → s₃.Quiescent → AllOrNothing s₃ f t k e.key

/-- The server rejects the friends record: the request is gone and both have an entry for a
friendship that is not there. -/
theorem not_acceptsAreAtomic : ¬ AcceptsAreAtomic mail := by
  intro h
  rcases h start asked pressed (answered false) "alice" "bob" "k" bob (found "alice") ⟨"f", 10⟩
    start_start (asked_reached.mono fun _ _ => Succeeds.proceeds) asked_pending (by decide) rfl
    rfl (Option.some_get _).symm (answered_reached false) (answered_quiescent false) with hmem | hk
  · have hrecord := hmem (.friends "f") List.mem_cons_self
    revert hrecord
    decide +kernel
  · have hsender := hk.sender
    revert hsender
    decide +kernel

end FLChat.Friends
