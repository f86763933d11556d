import Evfilter.Profile.Load
import Evfilter.Reader.Filters

/-!
# Reading a profile

`open_profilerc` and `evf_load_profile` with the arrays for the words of profilerc.
-/

namespace Evfilter.Reader
open Lib Comp Heap Line Param Profile

/-- Also the device, as it is found when a rule is checked. -/
structure ProfileSystem (φ σ : Type) extends System φ σ where
  device : σ → Probe × σ

/-- `EVFILTER_PROFILE_FILE` -/
def profileFile : CString := CString.literal "profilerc"

/-- What the loop keeps from pair to pair. -/
structure Progress (φ σ : Type) where
  hasMatched : Int
  filters : Option Addr
  world : World φ σ

structure Reading (φ σ : Type) where
  profile : Stream
  type : Buf 256
  value : Buf 2048
  progress : Progress φ σ

variable {φ σ : Type} (S : ProfileSystem φ σ) (path : CString)

def openProfilerc (s : σ) : Except EvfErr Stream × σ :=
  match S.malloc (path.strlen + profileFile.strlen + 1) s with
  | (some errno, s) => (.error (.errno errno), s)
  | (none, s) =>
    match S.fopen (path.append profileFile) s with
    | (.error errno, s) => (.error (.errno errno), s)
    | (.ok f, s) => (.ok f, s)

/-- What is done with the filters of a file. -/
def fileLoaded (s : Progress φ σ) (r : Result φ σ) : Comp Fault (Progress φ σ ⊕ Result φ σ) :=
  if r.err ≠ none then
    evfFiltersFree S.toSystem s.filters r.world >>= fun world => pure (.inr { ret := none, err := r.err, world })
  else
    let merged := evfFiltersMerge r.world.heap s.filters r.ret
    pure (.inl { hasMatched := -1, filters := merged.2, world := { r.world with heap := merged.1 } })

/-- `value` is looked at only if it is needed. -/
def processPair (type : CString) (value : Option CString) (s : Progress φ σ) :
    Comp Fault (Progress φ σ ⊕ Result φ σ) :=
  let s := { s with world := { s.world with processed := s.world.processed ++ [(type, value)] } }
  if CString.strcasecmp type (CString.literal "File") = 0 then
    if s.hasMatched ≠ 0 then
      done (orFault .unterminated value) >>= fun value =>
      evfLoadFiltersCompose S.toSystem path value s.world >>= fileLoaded S s
    else pure (.inl s)
  else
    done (orFault .unterminated value) >>= fun value =>
    let hasMatched := if s.hasMatched = -1 then 0 else s.hasMatched
    let device := S.device s.world.state
    let world := { s.world with state := device.2 }
    if checkForMatchingRule device.1 type value = 1 then pure (.inl { s with hasMatched := 1, world })
    else pure (.inl { s with hasMatched, world })

/-- The turn of the loop behind the two calls of `fscanf`. -/
def pairRead (s : Reading φ σ) : Comp Fault (Reading φ σ ⊕ Result φ σ) :=
  if s.profile.eof = true then
    pure (.inr { ret := s.progress.filters, err := none, world := s.progress.world })
  else
    done (orFault .unterminated (s.type.string 0)) >>= fun type =>
    processPair S path type (s.value.string 0) s.progress >>= fun turned =>
    pure (turned.map (fun progress => { s with progress }) id)

def profileTurn (s : Reading φ σ) : Comp Fault (Reading φ σ ⊕ Result φ σ) :=
  let word := s.profile.scanWord 256
  let rest := word.2.scanRest 2048
  done (store s.type word.1) >>= fun type =>
  done (store s.value rest.1) >>= fun value =>
  pairRead S path { s with profile := rest.2, type, value }

def start (w : World φ σ) : Progress φ σ := { hasMatched := 0, filters := none, world := w }

/-- What is left to do when `open_profilerc` has returned. -/
def profileRead (profile : Except EvfErr Stream) (w : World φ σ) : Comp Fault (Result φ σ) :=
  match profile with
  | .error err => pure { ret := none, err := some err, world := w }
  | .ok profile =>
    loop (profileTurn S path) { profile, type := S.stack 256, value := S.stack 2048, progress := start w }

def evfLoadProfile (w : World φ σ) : Comp Fault (Result φ σ) :=
  let profile := openProfilerc S path w.state
  profileRead S path profile.1 { w with state := profile.2 }

/-! ## Pairs one after the other -/

def processAll : List (CString × CString) → Progress φ σ → Comp Fault (Result φ σ)
  | [], s => pure { ret := s.filters, err := none, world := s.world }
  | pair :: pairs, s => processPair S path pair.1 (some pair.2) s >>= fun turned =>
    turned.elim (processAll pairs) pure

end Evfilter.Reader
