import Evfilter.Line.FilterList
import Evfilter.Loader.Blocks
import Evfilter.Reader.Lines

/-!
# Loading filters into memory

`evf_filter_free`, `evf_filters_free` and the functions of `evf_loader.c` on filters in a heap. Which of them are freed
is kept on record.
-/

namespace Evfilter.Reader
open Lib Comp Heap Line Param Loader

/-- What is called, and what arrays contain when they are declared. `malloc` fails with an `errno`. -/
structure System (φ σ : Type) where
  evfFilterLoad : CString → CString → σ → Except EvfErr φ × σ
  filterFree : φ → σ → σ
  malloc : Nat → σ → Option Int32 × σ
  fopen : CString → σ → Except Int32 Stream × σ
  stack : (n : Nat) → Buf n

/-- There is a record of the filters that are freed, and one of the pairs of a profile that are gone through. -/
structure World (φ σ : Type) where
  heap : Heap φ
  freed : List Addr
  processed : List (CString × Option CString)
  state : σ

/-- What is returned, what `err` is filled with if not with `evf_ok`, and what the call leaves. -/
structure Result (φ σ : Type) where
  ret : Option Addr
  err : Option EvfErr
  world : World φ σ

variable {φ σ : Type} (S : System φ σ)

/-! ## Freeing -/

def evfFilterFree (w : World φ σ) (filter : Addr) : Except Fault (World φ σ) := do
  let cell ← orFault .dangling (w.heap.get? filter)
  .ok { w with heap := w.heap.free filter, freed := w.freed ++ [filter], state := S.filterFree cell.val w.state }

def freeNext : Option Addr × World φ σ → Except Fault ((Option Addr × World φ σ) ⊕ World φ σ)
  | (none, w) => .ok (.inr w)
  | (some del, w) => do
    let cell ← orFault .dangling (w.heap.get? del)
    let w ← evfFilterFree S w del
    .ok (.inl (cell.next, w))

def evfFiltersFree (root : Option Addr) (w : World φ σ) : Comp Fault (World φ σ) :=
  loop (fun s => done (freeNext S s)) (root, w)

/-! ## The name of a filter -/

def takeName (buf : Buf 256) (read : LineBuf × Stream) : Except Fault (Int × Buf 256 × Stream) := do
  let line ← orFault .unterminated (read.1.string 0)
  if CString.strncasecmp filterName line 10 ≠ 0 then .ok (-1, buf, read.2)
  else
    let line ← orFault .unterminated (read.1.string 11)
    let line := ((line.dropWhile isspace).accept equals).dropWhile isspace
    let buf ← orFault .overflow ((Buf.strncpy 256 line).write 255 [0])
    .ok (0, buf, read.2)

def getFilterName (config : Stream) (buf : Buf 256) : Comp Fault (Int × Buf 256 × Stream) :=
  evfReadLinePreprocess (S.stack bufLen) config >>= fun read => done (takeName buf read)

/-! ## The parameters -/

/-- The array, and the values of `buf` and `buf_len`. -/
structure Params where
  array : Buf 4096
  buf : Nat
  bufLen : Nat

/-- Of `size_t` -/
def sizeSub (a b : Nat) : Nat := (a + 2 ^ 64 - b) % 2 ^ 64

def copy (p : Params) (line : CString) : Except Fault Params :=
  if 0 < p.bufLen ∧ line.strlen < sizeSub p.bufLen 2 then do
    let array ← orFault .overflow (p.array.write p.buf (line.bytes ++ [0]))
    let array ← orFault .overflow (array.write (p.buf + line.strlen) [32])
    let array ← orFault .overflow (array.write (p.buf + line.strlen + 1) [0])
    .ok { array, buf := p.buf + (line.strlen + 1), bufLen := p.bufLen - (line.strlen + 1) }
  else .ok p

def takeParams (p : Params) (read : LineBuf × Stream) :
    Except Fault ((Params × Stream) ⊕ (Int × Params × Stream)) := do
  let line ← orFault .unterminated (read.1.string 0)
  if CString.strcasecmp line endFilter = 0 then .ok (.inr (0, p, read.2))
  else if read.2.eof = true then .ok (.inr (-2, p, read.2))
  else
    let p ← copy p line
    .ok (.inl (p, read.2))

def paramsTurn (s : Params × Stream) : Comp Fault ((Params × Stream) ⊕ (Int × Params × Stream)) :=
  evfReadLinePreprocess (S.stack bufLen) s.2 >>= fun read => done (takeParams s.1 read)

def getFilterParams (config : Stream) (array : Buf 4096) : Comp Fault (Int × Params × Stream) :=
  done (orFault .overflow (array.write 0 [0])) >>= fun array => loop (paramsTurn S) (⟨array, 0, 4096⟩, config)

/-! ## The filters of a file -/

structure Loading (φ σ : Type) where
  config : Stream
  filter : Buf 256
  params : Buf 4096
  filters : Option Addr
  lastFilter : Option Addr
  world : World φ σ

abbrev Turned (φ σ : Type) := Loading φ σ ⊕ Result φ σ

/-- `err:` -/
def giveUp (filters : Option Addr) (w : World φ σ) (err : EvfErr) : Comp Fault (Turned φ σ) :=
  evfFiltersFree S filters w >>= fun world => pure (.inr { ret := none, err := some err, world })

def link (s : Loading φ σ) (params : Buf 4096) (config : Stream) (tmp : φ) (state : σ) : Comp Fault (Turned φ σ) :=
  let linked := linkFilter { heap := s.world.heap, filters := s.filters, lastFilter := s.lastFilter } tmp
  let world := { s.world with heap := linked.heap, state }
  if config.eof = true then pure (.inr { ret := linked.filters, err := none, world })
  else pure (.inl { config, filter := s.filter, params, filters := linked.filters,
                    lastFilter := linked.lastFilter, world })

def paramsRead (s : Loading φ σ) (read : Int × Params × Stream) : Comp Fault (Turned φ σ) :=
  if read.1 ≠ 0 then giveUp S s.filters s.world .noparams
  else
    done (orFault .unterminated (s.filter.string 0)) >>= fun filter =>
    done (orFault .unterminated (read.2.1.array.string 0)) >>= fun params =>
    match S.evfFilterLoad filter params s.world.state with
    | (.error err, state) => giveUp S s.filters { s.world with state } err
    | (.ok tmp, state) => link s read.2.1.array read.2.2 tmp state

def nameRead (s : Loading φ σ) (read : Int × Buf 256 × Stream) : Comp Fault (Turned φ σ) :=
  if read.2.2.eof = true then pure (.inr { ret := s.filters, err := none, world := s.world })
  else if read.1 ≠ 0 then giveUp S s.filters s.world .nofname
  else getFilterParams S read.2.2 s.params >>= paramsRead S { s with filter := read.2.1 }

def loadTurn (s : Loading φ σ) : Comp Fault (Turned φ σ) := getFilterName S s.config s.filter >>= nameRead S s

/-- The file has been opened. -/
def loadOpened (config : Stream) (w : World φ σ) : Comp Fault (Result φ σ) :=
  loop (loadTurn S) { config, filter := S.stack 256, params := S.stack 4096, filters := none, lastFilter := none,
                      world := w }

def evfLoadFilters (path : CString) (w : World φ σ) : Comp Fault (Result φ σ) :=
  match S.fopen path w.state with
  | (.error errno, state) => pure { ret := none, err := some (.errno errno), world := { w with state } }
  | (.ok config, state) => loadOpened S config { w with state }

def evfLoadFiltersCompose (path file : CString) (w : World φ σ) : Comp Fault (Result φ σ) :=
  match S.malloc (path.strlen + file.strlen + 1) w.state with
  | (some errno, state) => pure { ret := none, err := some (.errno errno), world := { w with state } }
  | (none, state) => evfLoadFilters S (path.append file) { w with state }

end Evfilter.Reader
