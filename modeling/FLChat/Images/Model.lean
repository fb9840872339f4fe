import FLChat.Realtime.Run

/-!
# Image views

`loadImageUsingCacheWithUrlString` on the image views of a process, which share `imageCache`. A
download ends on a thread of its own, and its block then waits on the main queue, which is served in
order. Neither the download nor the block is withdrawn when the view is given another URL.

The cells (`HomeCell`, `MessageCell` and the others) call the function each time they are reused; a
view is all that counts of them here. `View` are the image views, `URL`, `Data` and `UIImage` the
values of Foundation and UIKit.
-/

namespace FLChat.Images

open Realtime (Reaches exec)

/-- `URL(string:)` and `UIImage(data:)`. -/
structure Platform (URL Data UIImage : Type) where
  url : String → Option URL
  image : Data → Option UIImage

/-- A data task under way. -/
structure DataTask (View URL : Type) where
  view : View
  urlString : String
  url : URL

/-- What a data task hands to the main queue. -/
structure Block (View Data : Type) where
  view : View
  urlString : String
  data : Option Data

inductive Event (View URL Data : Type)
  | requested (view : View) (urlString : String) (cached : Bool)
  | downloaded (url : URL) (data : Option Data)
  | answered (view : View) (urlString : String)

structure State (View URL Data UIImage : Type) where
  imageCache : String → Option UIImage
  image : View → Option UIImage
  dataTasks : List (DataTask View URL)
  main : List (Block View Data)
  trapped : Bool
  log : List (Event View URL Data)

inductive Label (View Data : Type)
  | load (view : View) (urlString : String)
  | complete (i : Nat) (data : Option Data)
  | runMain
  | evict (urlString : String)

variable {View URL Data UIImage : Type} [DecidableEq View]

def State.setImage (s : State View URL Data UIImage) (view : View) (image : Option UIImage) :
    State View URL Data UIImage :=
  { s with image := fun view' => if view' = view then image else s.image view' }

/-- `imageCache.setObject`. -/
def State.setObject (s : State View URL Data UIImage) (image : UIImage) (urlString : String) :
    State View URL Data UIImage :=
  { s with imageCache := fun key => if key = urlString then some image else s.imageCache key }

def State.trap (s : State View URL Data UIImage) : State View URL Data UIImage :=
  { s with trapped := true }

/-- The string of a request is unwrapped as a URL where the cache does not have it. -/
def loadImageUsingCacheWithUrlString (P : Platform URL Data UIImage) (view : View)
    (urlString : String) (s : State View URL Data UIImage) : State View URL Data UIImage :=
  match s.imageCache urlString with
  | some cachedImage =>
    { s.setImage view (some cachedImage) with log := .requested view urlString true :: s.log }
  | none =>
    match P.url urlString with
    | none => s.trap
    | some url =>
      { s with
        dataTasks := s.dataTasks ++ [⟨view, urlString, url⟩]
        log := .requested view urlString false :: s.log }

/-- The completion handler. An error is only printed. -/
def completionHandler (t : DataTask View URL) (data : Option Data)
    (s : State View URL Data UIImage) : State View URL Data UIImage :=
  { s with
    main := s.main ++ [⟨t.view, t.urlString, data⟩]
    log := .downloaded t.url data :: s.log }

/-- The block on the main queue. The data are unwrapped, and what is not an image is ignored. -/
def Block.run (P : Platform URL Data UIImage) (b : Block View Data)
    (s : State View URL Data UIImage) : State View URL Data UIImage :=
  match b.data with
  | none => s.trap
  | some data =>
    match P.image data with
    | none => s
    | some downloadedImage =>
      { (s.setObject downloadedImage b.urlString).setImage b.view (P.image data) with
        log := .answered b.view b.urlString :: s.log }

/-- One step. The cache may drop an image at any time. -/
def step (P : Platform URL Data UIImage) (s : State View URL Data UIImage) :
    Label View Data → Option (State View URL Data UIImage)
  | .load view urlString =>
    if s.trapped then none else some (loadImageUsingCacheWithUrlString P view urlString s)
  | .complete i data =>
    if s.trapped then none
    else s.dataTasks[i]?.map fun t =>
      completionHandler t data { s with dataTasks := s.dataTasks.eraseIdx i }
  | .runMain =>
    if s.trapped then none
    else match s.main with
      | [] => none
      | b :: main => some (b.run P { s with main := main })
  | .evict urlString =>
    some { s with
      imageCache := fun key => if key = urlString then none else s.imageCache key }

/-- What each step can do. -/
inductive Transition (P : Platform URL Data UIImage) (s : State View URL Data UIImage) :
    Label View Data → State View URL Data UIImage → Prop
  | hit {view urlString cachedImage} (hc : s.imageCache urlString = some cachedImage) :
    Transition P s (.load view urlString)
      { s.setImage view (some cachedImage) with log := .requested view urlString true :: s.log }
  | malformed {view urlString} (hurl : P.url urlString = none) :
    Transition P s (.load view urlString) s.trap
  | miss {view urlString url} (hurl : P.url urlString = some url) :
    Transition P s (.load view urlString)
      { s with
        dataTasks := s.dataTasks ++ [⟨view, urlString, url⟩]
        log := .requested view urlString false :: s.log }
  | complete {i data t} (ht : s.dataTasks[i]? = some t) :
    Transition P s (.complete i data)
      (completionHandler t data { s with dataTasks := s.dataTasks.eraseIdx i })
  | lost {b main} (hm : s.main = b :: main) (hb : b.data = none) :
    Transition P s .runMain { s with main := main }.trap
  | ignored {b main data} (hm : s.main = b :: main) (hb : b.data = some data)
    (hdata : P.image data = none) : Transition P s .runMain { s with main := main }
  | shown {b main data downloadedImage} (hm : s.main = b :: main) (hb : b.data = some data)
    (hdata : P.image data = some downloadedImage) :
    Transition P s .runMain
      { ({ s with main := main }.setObject downloadedImage b.urlString).setImage b.view
          (some downloadedImage) with
        log := .answered b.view b.urlString :: s.log }
  | evict {urlString} :
    Transition P s (.evict urlString)
      { s with imageCache := fun key => if key = urlString then none else s.imageCache key }

theorem transition_of_step {P : Platform URL Data UIImage} {s s' : State View URL Data UIImage}
    {l : Label View Data} (h : step P s l = some s') : Transition P s l s' := by
  cases l with
  | load view urlString =>
    simp only [step] at h
    split at h
    · cases h
    · obtain rfl := Option.some.inj h
      unfold loadImageUsingCacheWithUrlString
      split
      · next hc => exact .hit hc
      · split
        · next hurl => exact .malformed hurl
        · next hurl => exact .miss hurl
  | complete i data =>
    simp only [step] at h
    split at h
    · cases h
    · obtain ⟨t, ht, rfl⟩ := Option.map_eq_some_iff.1 h
      exact .complete ht
  | runMain =>
    simp only [step] at h
    split at h
    · cases h
    · split at h
      · cases h
      · next b main hm =>
        obtain rfl := Option.some.inj h
        unfold Block.run
        split
        · next hb => exact .lost hm hb
        · next data hb =>
          split
          · next hdata => exact .ignored hm hb hdata
          · next image hdata =>
            rw [hdata]
            exact .shown hm hb hdata
  | evict urlString =>
    obtain rfl := Option.some.inj h
    exact .evict

/-- Nothing has been requested yet. -/
structure State.Launched (s : State View URL Data UIImage) : Prop where
  imageCache : ∀ key, s.imageCache key = none
  dataTasks : s.dataTasks = []
  main : s.main = []
  trapped : s.trapped = false
  log : s.log = []

/-- No download is pending. -/
structure State.Settled (s : State View URL Data UIImage) : Prop where
  dataTasks : s.dataTasks = []
  main : s.main = []

/-! ## The requests of a view -/

/-- The URL of a request of the view. -/
def requestOf (view : View) : Event View URL Data → Option String
  | .requested view' urlString _ => if view' = view then some urlString else none
  | _ => none

/-- The URL of a request of the view that is met: out of the cache, or by the block of its
download. -/
def answerOf (view : View) : Event View URL Data → Option String
  | .requested view' urlString true | .answered view' urlString =>
    if view' = view then some urlString else none
  | _ => none

def lastRequested (view : View) (log : List (Event View URL Data)) : Option String :=
  log.findSome? (requestOf view)

def lastAnswered (view : View) (log : List (Event View URL Data)) : Option String :=
  log.findSome? (answerOf view)

/-- The image that a URL stands for when `content` is what the downloads yield. -/
def Platform.picture (P : Platform URL Data UIImage) (content : URL → Data) (urlString : String) :
    Option UIImage :=
  (P.url urlString).bind fun url => P.image (content url)

/-- Every URL is that of an image, and every download succeeds. -/
def Succeeds (P : Platform URL Data UIImage) (content : URL → Data)
    (s : State View URL Data UIImage) : Label View Data → Prop
  | .load _ urlString => (P.picture content urlString).isSome
  | .complete i data => ∀ t ∈ s.dataTasks[i]?, data = some (content t.url)
  | .runMain | .evict _ => True

instance [DecidableEq Data] (P : Platform URL Data UIImage) (content : URL → Data)
    (s : State View URL Data UIImage) : DecidablePred (Succeeds P content s)
  | .load _ _ => inferInstanceAs (Decidable (_ = true))
  | .complete i _ => inferInstanceAs (Decidable (∀ t ∈ s.dataTasks[i]?, _))
  | .runMain | .evict _ => isTrue trivial

end FLChat.Images
