import FLChat.Images.Model

/-!
# The image that is shown last

The cache is right in every run: what it has under a key was downloaded from the URL of that key
(`Downloaded.of_reaches`). What a view shows in the end is the image of the request that was
answered last, in whatever order the requests were made (`showsLast_iff`): a view that is reused
while an earlier download is pending can end with the image of the earlier request
(`not_showsLast`).
-/

namespace FLChat.Images

open Realtime (Reaches exec)

variable {View URL Data UIImage : Type} [DecidableEq View] {P : Platform URL Data UIImage}
  {content : URL → Data} {s₀ s s' : State View URL Data UIImage} {l : Label View Data}
  {view : View}

/-! ## The cache -/

/-- Everything on its way to the cache, and all that is there, was downloaded from its URL. -/
structure Downloaded (P : Platform URL Data UIImage) (s : State View URL Data UIImage) : Prop where
  dataTasks : ∀ t ∈ s.dataTasks, P.url t.urlString = some t.url
  main : ∀ b ∈ s.main, ∃ url, P.url b.urlString = some url ∧ .downloaded url b.data ∈ s.log
  imageCache : ∀ key image, s.imageCache key = some image → ∃ url data,
    P.url key = some url ∧ .downloaded url (some data) ∈ s.log ∧ P.image data = some image

namespace Downloaded

omit [DecidableEq View] in
theorem launched (h : s.Launched) : Downloaded P s where
  dataTasks := by simp [h.dataTasks]
  main := by simp [h.main]
  imageCache := by simp [h.imageCache]

omit [DecidableEq View] in
/-- What has been downloaded stays so when the log grows. -/
theorem log (h : Downloaded P s) (ev : Event View URL Data) :
    Downloaded P { s with log := ev :: s.log } where
  dataTasks := h.dataTasks
  main := by
    intro b hb
    obtain ⟨url, hurl, hmem⟩ := h.main b hb
    exact ⟨url, hurl, List.mem_cons_of_mem _ hmem⟩
  imageCache := by
    intro key image hkey
    obtain ⟨url, data, hurl, hmem, hdata⟩ := h.imageCache key image hkey
    exact ⟨url, data, hurl, List.mem_cons_of_mem _ hmem, hdata⟩

theorem step (h : Downloaded P s) (hs : Transition P s l s') : Downloaded P s' := by
  cases hs with
  | @hit view urlString cachedImage _ =>
    have := h.log (.requested view urlString true)
    exact ⟨this.dataTasks, this.main, this.imageCache⟩
  | malformed => exact ⟨h.dataTasks, h.main, h.imageCache⟩
  | @miss view urlString url hurl =>
    have := h.log (.requested view urlString false)
    refine ⟨fun t ht => ?_, this.main, this.imageCache⟩
    obtain ht | ht := List.mem_append.1 ht
    · exact h.dataTasks t ht
    · rw [List.mem_singleton.1 ht]
      exact hurl
  | @complete i data t ht =>
    have := h.log (.downloaded t.url data)
    refine ⟨fun t' ht' => h.dataTasks t' (List.mem_of_mem_eraseIdx ht'), fun b hb => ?_,
      this.imageCache⟩
    obtain hb | hb := List.mem_append.1 hb
    · exact this.main b hb
    · rw [List.mem_singleton.1 hb]
      exact ⟨t.url, h.dataTasks t (List.mem_of_getElem? ht), List.mem_cons_self⟩
  | lost hm _ | ignored hm _ _ =>
    exact ⟨h.dataTasks, fun b hb => h.main b (hm ▸ List.mem_cons_of_mem _ hb), h.imageCache⟩
  | @shown b main data downloadedImage hm hb hdata =>
    have := h.log (.answered b.view b.urlString)
    refine ⟨h.dataTasks, fun b' hb' => this.main b' (hm ▸ List.mem_cons_of_mem _ hb'),
      fun key image hkey => ?_⟩
    simp only [State.setImage, State.setObject] at hkey
    split at hkey
    · next heq =>
      obtain rfl := Option.some.inj hkey
      obtain ⟨url, hurl, hmem⟩ := h.main b (hm ▸ List.mem_cons_self)
      exact ⟨url, data, heq ▸ hurl, List.mem_cons_of_mem _ (hb ▸ hmem), hdata⟩
    · exact this.imageCache key image hkey
  | @evict urlString =>
    refine ⟨h.dataTasks, h.main, fun key image hkey => ?_⟩
    simp only at hkey
    split at hkey
    · cases hkey
    · exact h.imageCache key image hkey

theorem of_reaches {ok : State View URL Data UIImage → Label View Data → Prop} (hs : s₀.Launched)
    (h : Reaches (Images.step P) ok s₀ s) : Downloaded P s :=
  h.invariant (.launched hs) fun hI _ hstep => hI.step (transition_of_step hstep)

end Downloaded

/-! ## The view -/

theorem lastAnswered_cons (ev : Event View URL Data) (log : List (Event View URL Data)) :
    lastAnswered view (ev :: log) = (answerOf view ev).or (lastAnswered view log) :=
  Realtime.findSome?_cons_or _ ev log

theorem lastRequested_cons (ev : Event View URL Data) (log : List (Event View URL Data)) :
    lastRequested view (ev :: log) = (requestOf view ev).or (lastRequested view log) :=
  Realtime.findSome?_cons_or _ ev log

/-- A view waits for a download or for a block. -/
def State.Waits (s : State View URL Data UIImage) (view : View) : Prop :=
  (∃ t ∈ s.dataTasks, t.view = view) ∨ ∃ b ∈ s.main, b.view = view

namespace State.Waits

omit [DecidableEq View] in
/-- A download that ends leaves its block. -/
theorem complete (h : s.Waits view) {i : Nat} {t : DataTask View URL} (data : Option Data)
    (ht : s.dataTasks[i]? = some t) :
    (completionHandler t data { s with dataTasks := s.dataTasks.eraseIdx i }).Waits view := by
  rcases h with ⟨t', ht', hv⟩ | ⟨b, hb, hv⟩
  · obtain ⟨j, hj⟩ := List.mem_iff_getElem?.1 ht'
    by_cases hij : j = i
    · obtain rfl : t' = t := Option.some.inj ((hij ▸ hj).symm.trans ht)
      exact .inr ⟨_, List.mem_append_right _ List.mem_cons_self, hv⟩
    · exact .inl ⟨t', List.mem_eraseIdx_iff_getElem?.2 ⟨j, hij, hj⟩, hv⟩
  · exact .inr ⟨b, List.mem_append_left _ hb, hv⟩

omit [DecidableEq View] in
/-- The block that runs is that of the view, or the view still waits. -/
theorem runMain (h : s.Waits view) {b : Block View Data} {main : List (Block View Data)}
    (hm : s.main = b :: main) : b.view = view ∨ { s with main := main }.Waits view := by
  rcases h with ht | ⟨b', hb', hv⟩
  · exact .inr (.inl ht)
  · rw [hm] at hb'
    rcases List.mem_cons.1 hb' with rfl | hb'
    · exact .inl hv
    · exact .inr (.inr ⟨b', hb', hv⟩)

end State.Waits

/-- What the views show in a run in which everything succeeds. -/
structure Answers (P : Platform URL Data UIImage) (content : URL → Data)
    (s : State View URL Data UIImage) : Prop extends Downloaded P s where
  trapped : s.trapped = false
  downloaded : ∀ url data, .downloaded url data ∈ s.log → data = some (content url)
  pictures : ∀ t ∈ s.dataTasks, (P.picture content t.urlString).isSome
  blocks : ∀ b ∈ s.main, (P.picture content b.urlString).isSome
  image : ∀ view urlString, lastAnswered view s.log = some urlString →
    s.image view = P.picture content urlString
  waits : ∀ view, (lastRequested view s.log).isSome →
    (lastAnswered view s.log).isSome ∨ s.Waits view

namespace Answers

theorem launched (h : s.Launched) : Answers P content s where
  toDownloaded := .launched h
  trapped := h.trapped
  downloaded := by simp [h.log]
  pictures := by simp [h.dataTasks]
  blocks := by simp [h.main]
  image := by simp [h.log, lastAnswered]
  waits := by simp [h.log, lastRequested]

/-- What the cache has under a key is the image of that key. -/
theorem picture_of_imageCache (h : Answers P content s) {key : String} {image : UIImage}
    (hkey : s.imageCache key = some image) : P.picture content key = some image := by
  obtain ⟨url, data, hurl, hmem, hdata⟩ := h.imageCache key image hkey
  obtain rfl := Option.some.inj (h.downloaded url _ hmem)
  simp [Platform.picture, hurl, hdata]

/-- What a block brings is the image of its URL. -/
theorem picture_of_block (h : Answers P content s) {b : Block View Data} (hb : b ∈ s.main) :
    ∃ data, b.data = some data ∧ P.image data = P.picture content b.urlString := by
  obtain ⟨url, hurl, hmem⟩ := h.main b hb
  exact ⟨content url, h.downloaded url _ hmem, by simp [Platform.picture, hurl]⟩

/-- A view that is given the image of a URL that is answered. -/
theorem image_cons (h : Answers P content s) {ev : Event View URL Data} {view' : View}
    {urlString : String} {image : UIImage}
    (hev : ∀ view, answerOf view ev = if view' = view then some urlString else none)
    (himage : P.picture content urlString = some image) {urlString' : String}
    (hlast : lastAnswered view (ev :: s.log) = some urlString') :
    (if view = view' then some image else s.image view) = P.picture content urlString' := by
  rw [lastAnswered_cons, hev] at hlast
  by_cases hv : view' = view
  · subst hv
    simp only [↓reduceIte, Option.some_or, Option.some.injEq] at hlast
    rw [if_pos rfl, ← hlast, himage]
  · have hv' : view ≠ view' := fun e => hv e.symm
    rw [if_neg hv, Option.none_or] at hlast
    rw [if_neg hv', h.image view urlString' hlast]

theorem step (h : Answers P content s) (hl : Succeeds P content s l)
    (hs : Transition P s l s') : Answers P content s' := by
  have hdown := h.toDownloaded.step hs
  cases hs with
  | @hit view urlString cachedImage hc =>
    refine ⟨hdown, h.trapped, ?_, h.pictures, h.blocks, ?_, ?_⟩
    · simpa [State.setImage] using h.downloaded
    · intro view' urlString' hlast
      exact h.image_cons (fun _ => rfl) (h.picture_of_imageCache hc) hlast
    · intro view' hreq
      rw [lastRequested_cons] at hreq
      simp only [lastAnswered_cons, answerOf, requestOf] at hreq ⊢
      by_cases hv : view = view'
      · simp [hv]
      · simp only [hv, ↓reduceIte, Option.none_or] at hreq ⊢
        exact h.waits view' hreq
  | @malformed view urlString hurl => simp [Succeeds, Platform.picture, hurl] at hl
  | @miss view urlString url hurl =>
    refine ⟨hdown, h.trapped, ?_, ?_, h.blocks, ?_, ?_⟩
    · simpa using h.downloaded
    · intro t ht
      obtain ht | ht := List.mem_append.1 ht
      · exact h.pictures t ht
      · rw [List.mem_singleton.1 ht]
        exact hl
    · intro view' urlString' hlast
      rw [lastAnswered_cons] at hlast
      exact h.image view' urlString' hlast
    · intro view' hreq
      rw [lastRequested_cons] at hreq
      simp only [lastAnswered_cons, answerOf, requestOf, Option.none_or] at hreq ⊢
      by_cases hv : view = view'
      · exact .inr (.inl ⟨_, List.mem_append_right _ List.mem_cons_self, hv⟩)
      · simp only [hv, ↓reduceIte, Option.none_or] at hreq
        refine (h.waits view' hreq).imp_right fun hw => hw.imp_left ?_
        rintro ⟨t, ht, htv⟩
        exact ⟨t, List.mem_append_left _ ht, htv⟩
  | @complete i data t ht =>
    obtain rfl := hl t ht
    have hmem := List.mem_of_getElem? ht
    refine ⟨hdown, h.trapped, ?_, fun t' ht' => h.pictures t' (List.mem_of_mem_eraseIdx ht'),
      ?_, ?_, ?_⟩
    · intro url data hd
      obtain hd | hd := List.mem_cons.1 hd
      · cases hd
        rfl
      · exact h.downloaded url data hd
    · intro b hb
      obtain hb | hb := List.mem_append.1 hb
      · exact h.blocks b hb
      · rw [List.mem_singleton.1 hb]
        exact h.pictures t hmem
    · intro view' urlString' hlast
      rw [completionHandler, lastAnswered_cons] at hlast
      exact h.image view' urlString' hlast
    · intro view' hreq
      simp only [completionHandler, lastRequested_cons, lastAnswered_cons, answerOf, requestOf,
        Option.none_or] at hreq ⊢
      exact (h.waits view' hreq).imp_right fun hw => hw.complete _ ht
  | @lost b main hm hb =>
    obtain ⟨data, hdata, -⟩ := h.picture_of_block (hm ▸ List.mem_cons_self)
    rw [hb] at hdata
    cases hdata
  | @ignored b main data hm hb hdata =>
    have hmem : b ∈ s.main := hm ▸ List.mem_cons_self
    obtain ⟨data', hb', hpic⟩ := h.picture_of_block hmem
    obtain rfl := Option.some.inj (hb.symm.trans hb')
    have hsome := h.blocks b hmem
    rw [← hpic, hdata] at hsome
    cases hsome
  | @shown b main data downloadedImage hm hb hdata =>
    have hmem : b ∈ s.main := hm ▸ List.mem_cons_self
    obtain ⟨data', hb', hpic⟩ := h.picture_of_block hmem
    obtain rfl := Option.some.inj (hb.symm.trans hb')
    refine ⟨hdown, h.trapped, ?_, h.pictures,
      fun b' hb' => h.blocks b' (hm ▸ List.mem_cons_of_mem _ hb'), ?_, ?_⟩
    · simpa [State.setImage, State.setObject] using h.downloaded
    · intro view' urlString' hlast
      exact h.image_cons (fun _ => rfl) (hpic.symm.trans hdata) hlast
    · intro view' hreq
      simp only [State.setImage, State.setObject, lastRequested_cons, lastAnswered_cons, answerOf,
        requestOf, Option.none_or] at hreq ⊢
      rcases h.waits view' hreq with hlast | hw
      · exact .inl (by by_cases hv : b.view = view' <;> simp [hv, hlast])
      · rcases hw.runMain hm with hv | hw
        · exact .inl (by simp [hv])
        · exact .inr hw
  | evict => exact ⟨hdown, h.trapped, h.downloaded, h.pictures, h.blocks, h.image, h.waits⟩

theorem of_reaches (hs : s₀.Launched)
    (h : Reaches (Images.step P) (Succeeds P content) s₀ s) : Answers P content s :=
  h.invariant (.launched hs) fun hI hl hstep => hI.step hl (transition_of_step hstep)

end Answers

/-- The view shows the image of the URL that was requested last. -/
def ShowsLast (P : Platform URL Data UIImage) (content : URL → Data)
    (s : State View URL Data UIImage) (view : View) : Prop :=
  ∀ urlString, lastRequested view s.log = some urlString →
    s.image view = P.picture content urlString

/-- The request of the view that was answered last is for the image of the one made last. -/
def AnsweredLast (P : Platform URL Data UIImage) (content : URL → Data) (view : View)
    (log : List (Event View URL Data)) : Prop :=
  ∀ urlString, lastRequested view log = some urlString →
    ∃ urlString', lastAnswered view log = some urlString' ∧
      P.picture content urlString' = P.picture content urlString

/-- When no download is pending, a view shows the image that was requested last exactly if that
request, or another one for the same image, was answered last. Whatever the order, the cache has the
image of each of its keys. -/
theorem showsLast_iff (hs : s₀.Launched)
    (h : Reaches (step P) (Succeeds P content) s₀ s) (hq : s.Settled) :
    (∀ view, ShowsLast P content s view ↔ AnsweredLast P content view s.log) ∧
      ∀ key image, s.imageCache key = some image → ∃ url, P.url key = some url ∧
        .downloaded url (some (content url)) ∈ s.log ∧ P.image (content url) = some image := by
  have hans := Answers.of_reaches hs h
  refine ⟨fun view => forall₂_congr fun urlString hreq => ?_, fun key image hkey => ?_⟩
  · -- no request of the view is left unanswered
    have hlast : (lastAnswered view s.log).isSome := by
      rcases hans.waits view (hreq ▸ rfl) with hlast | ⟨t, ht, -⟩ | ⟨b, hb, -⟩
      · exact hlast
      · rw [hq.dataTasks] at ht
        cases ht
      · rw [hq.main] at hb
        cases hb
    obtain ⟨urlString', hlast⟩ := Option.isSome_iff_exists.1 hlast
    rw [hans.image view urlString' hlast]
    refine ⟨fun he => ⟨urlString', hlast, he⟩, ?_⟩
    rintro ⟨urlString'', hlast', he⟩
    obtain rfl := Option.some.inj (hlast.symm.trans hlast')
    exact he
  · obtain ⟨url, data, hurl, hmem, hdata⟩ := hans.imageCache key image hkey
    obtain rfl := Option.some.inj (hans.downloaded url _ hmem)
    exact ⟨url, hurl, hmem, hdata⟩

/-! ## A reused view -/

/-- Every string is a URL that yields itself. -/
def echo : Platform String String String := ⟨some, some⟩

def launch : State Nat String String String where
  imageCache := fun _ => none
  image := fun _ => none
  dataTasks := []
  main := []
  trapped := false
  log := []

theorem launch_launched : launch.Launched := ⟨fun _ => rfl, rfl, rfl, rfl, rfl⟩

/-- A view is given a second URL before the image of the first one is there. -/
def reuse : List (Label Nat String) := [.load 0 "cat", .load 0 "dog"]

/-- The downloads end in the order of the requests. -/
def inOrder : List (Label Nat String) :=
  reuse ++ [.complete 0 (some "cat"), .complete 0 (some "dog"), .runMain, .runMain]

theorem inOrder_runs : (exec (step echo) (Succeeds echo id) launch inOrder).isSome = true := by
  decide +kernel

theorem showsLast_inOrder :
    ShowsLast echo id ((exec (step echo) (Succeeds echo id) launch inOrder).get inOrder_runs) 0 :=
  ((showsLast_iff launch_launched (.of_exec (Option.some_get _).symm) ⟨rfl, rfl⟩).1 0).2
    fun _ hlast => ⟨"dog", rfl, by cases hlast; rfl⟩

/-- The download of the second image ends first. -/
def overtaken : List (Label Nat String) :=
  reuse ++ [.complete 1 (some "dog"), .complete 0 (some "cat"), .runMain, .runMain]

theorem overtaken_runs :
    (exec (step echo) (Succeeds echo id) launch overtaken).isSome = true := by decide +kernel

/-- The view shows the cat though the dog was requested last. -/
theorem not_showsLast : ¬ ∀ (s : State Nat String String String),
    Reaches (step echo) (Succeeds echo id) launch s → s.Settled → ShowsLast echo id s 0 := by
  intro h
  have himage := h ((exec (step echo) (Succeeds echo id) launch overtaken).get overtaken_runs)
    (.of_exec (Option.some_get _).symm) ⟨rfl, rfl⟩ "dog" rfl
  exact absurd himage (by decide +kernel)

end FLChat.Images
