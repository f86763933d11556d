import Evfilter.Reader.Collect

/-!
# Readers of filters, line after line

What the loops of `evf_loader.c` make of one line more. Filters are in one list until they are returned or freed.
-/

namespace Evfilter.Reader
open Lib Comp Heap Line Param Loader

variable {φ σ : Type} {S : System φ σ} {w : World φ σ} {root : Option Addr} {l : List (Addr × φ)}

theorem free_chain (h : w.heap.Chain root l) : ∃ w', (evfFiltersFree S root w).Yields (.ok w') ∧
    w'.freed = w.freed ++ addrs l ∧ w'.heap.size = w.heap.size ∧
    ∀ b, w'.heap.get? b = if b ∈ addrs l then none else w.heap.get? b := by
  induction l generalizing root w with
  | nil =>
      obtain rfl : root = none := h
      have hsame : (evfFiltersFree S none w).Same (pure w) := same_loop_inr rfl
      exact ⟨w, (hsame _).mpr (yields_pure.mpr rfl), by simp, rfl, by simp⟩
  | cons x l ih =>
      obtain ⟨a, v⟩ := x
      obtain ⟨rfl, n, hcell, htail⟩ := id h
      let w₁ : World φ σ := { w with heap := w.heap.free a, freed := w.freed ++ [a], state := S.filterFree v w.state }
      have hnext : freeNext S (some a, w) = .ok (.inl (n, w₁)) := by
        simp only [freeNext, evfFilterFree, hcell, orFault, ok_bind]
        rfl
      have hsame : (evfFiltersFree S (some a) w).Same (evfFiltersFree S n w₁) := same_loop_inl (congrArg done hnext)
      obtain ⟨w', hyields, hfreed, hsize, hget⟩ := ih (w := w₁) (h.unlink_first hcell)
      refine ⟨w', (hsame _).mpr hyields, ?_, hsize.trans (size_free _ _), fun b => ?_⟩
      · rw [hfreed]
        simp [w₁, addrs]
      · rw [hget, show w₁.heap = w.heap.free a from rfl, get?_free]
        by_cases hb : b ∈ addrs l
        · simp [hb]
        · by_cases hab : a = b
          · simp [hab]
          · simp [hb, hab, Ne.symm hab]

/-! ## The name -/

theorem takeName_eq (buf : Buf 256) (line : CString) (file : Stream) (h : line.strlen < bufLen) :
    ∃ ret buf', takeName buf (Buf.strncpy bufLen line, file) = .ok (ret, buf', file) ∧
      (nameIn line = none → ret = -1) ∧ ∀ name, nameIn line = some name → ret = 0 ∧ buf'.string 0 = some name := by
  have hzero : (Buf.strncpy bufLen line).string 0 = some line := Buf.string_strncpy h (by decide)
  have hdrop : (Buf.strncpy bufLen line).string 11 = some (line.drop 11) := Buf.string_strncpy h (by decide)
  by_cases hname : CString.strncasecmp filterName line 10 ≠ 0
  · refine ⟨-1, buf, ?_, fun _ => rfl, fun name hsome => ?_⟩
    · simp only [takeName, hzero, orFault, ok_bind, if_pos hname]
    · rw [nameIn, if_pos hname] at hsome
      cases hsome
  · let str := (((line.drop 11).dropWhile isspace).accept equals).dropWhile isspace
    obtain ⟨buf', hwrite⟩ := Buf.write_some (b := Buf.strncpy 256 str) (p := 255) (s := [0]) (by decide)
    refine ⟨0, buf', ?_, fun hnone => ?_, fun name hsome => ⟨rfl, ?_⟩⟩
    · simp only [takeName, hzero, hdrop, orFault, ok_bind, if_neg hname]
      rw [hwrite]
      rfl
    · rw [nameIn, if_neg hname] at hnone
      cases hnone
    · rw [nameIn, if_neg hname] at hsome
      rw [Buf.string_strncpy_cut hwrite]
      exact hsome

theorem strlen_content_lt {line : List UInt8} (h : line.length < bufLen) : (content line).strlen < bufLen :=
  Nat.lt_of_le_of_lt (strlen_content_le line) h

theorem follows_getFilterName {config : Stream} (buf : Buf 256) (hp : Proper config.rest) :
    Follows (fun _ => True) (fun c => c = []) (scans config.rest) config.broken (getFilterName S config buf) := by
  have hdone {line : CString} (file : Stream) (h : line.strlen < bufLen) :
      (done (takeName buf (Buf.strncpy bufLen line, file))).Returns fun _ => True := by
    obtain ⟨ret, buf', htake, -⟩ := takeName_eq buf line file h
    exact ⟨_, yields_done.mpr htake.symm, trivial⟩
  refine follows_read_bind hp rfl (fun file _ _ => hdone file (by decide)) ?_
  intro line file _ hshort _ _ _ _
  exact follows_done (fun c => List.cons_ne_nil _ _) (hdone file (strlen_content_lt hshort))

/-! ## The parameters -/

/-- The lines that have been copied are in the array, and there is room behind them. -/
structure Holds (p : Params) (acc : CString × Nat) : Prop where
  buf : p.buf = acc.1.strlen
  room : p.bufLen = acc.2
  size : acc.1.strlen + acc.2 = 4096
  left : 2 ≤ acc.2
  bytes : ∃ tail, p.array.bytes = acc.1.bytes ++ 0 :: tail

theorem Holds.string {p : Params} {acc : CString × Nat} (h : Holds p acc) : p.array.string 0 = some acc.1 :=
  h.bytes.elim fun _ => Buf.string_start

theorem copy_holds {p : Params} {acc : CString × Nat} (h : Holds p acc) (line : CString) :
    ∃ p', copy p line = .ok p' ∧ Holds p' (copyLine acc line) := by
  have hsized : Sized.Holds (Sized.ofReader p) acc := ⟨h.buf, h.room, h.size, h.left, h.bytes⟩
  obtain ⟨q, hcopy, hold⟩ := Sized.copy_holds (by decide) hsized line
  rw [Sized.copy_ofReader hsized] at hcopy
  cases hp : copy p line with
  | error e =>
      rw [hp] at hcopy
      cases hcopy
  | ok p' =>
      rw [hp] at hcopy
      obtain rfl : Sized.ofReader p' = q := Except.ok.inj hcopy
      exact ⟨p', rfl, hold.buf, hold.room, hold.size, hold.left, hold.bytes⟩

variable {α : Type} {Q : α → Prop} {broken : Bool} {config : Stream} {p : Params} {acc : CString × Nat}

theorem takeParams_eq (p : Params) {line : CString} (file : Stream) (h : line.strlen < bufLen) :
    takeParams p (Buf.strncpy bufLen line, file) =
      if Closes line then .ok (.inr (0, p, file))
      else if file.eof = true then .ok (.inr (-2, p, file))
      else copy p line >>= fun p => .ok (.inl (p, file)) := by
  have hstring : (Buf.strncpy bufLen line).string 0 = some line := Buf.string_strncpy h (by decide)
  simp only [takeParams, hstring, orFault, ok_bind]
  rfl

/-- The parameters are read up to a line that closes the block. `More` is for the lines up to there and behind, and
`Behind` for those behind. -/
theorem follows_params {k : Int × Params × Stream → Comp Fault α} (More Behind : CString × Nat → List CString → Prop)
    (hnil : ∀ acc, More acc [])
    (hcloses : ∀ acc e c, Closes e → (More acc (e :: c) ↔ Behind acc c))
    (hline : ∀ acc e c, ¬ Closes e → (More acc (e :: c) ↔ More (copyLine acc e) c))
    (hend : ∀ p file, file.eof = true → (k (-2, p, file)).Returns Q)
    (hdone : ∀ p acc file, Holds p acc → Proper file.rest → file.broken = config.broken →
      (file.eof = true ↔ scans file.rest = [] ∧ file.broken = false) →
      (scans file.rest).length < (scans config.rest).length →
      Follows Q (Behind acc) (scans file.rest) config.broken (k (0, p, file)))
    (hp : Proper config.rest) (hold : Holds p acc) :
    Follows Q (More acc) (scans config.rest) config.broken (loop (paramsTurn S) (p, config) >>= k) := by
  obtain ⟨n, hn⟩ : ∃ n, (scans config.rest).length = n := ⟨_, rfl⟩
  induction n using Nat.strongRecOn generalizing config p acc with
  | ind n ih =>
      let turned (read : LineBuf × Stream) : Comp Fault α := done (takeParams p read) >>= again (paramsTurn S) >>= k
      have hsame : (loop (paramsTurn S) (p, config) >>= k).Same
          (evfReadLinePreprocess (S.stack bufLen) config >>= turned) :=
        (((same_loop _ _).trans (same_bind_bind _ _ _)).bind k).trans (same_bind_bind _ _ _)
      have hleave {r : Int × Params × Stream} {read : LineBuf × Stream} (h : takeParams p read = .ok (.inr r)) :
          (turned read).Same (k r) := by
        change (done (takeParams p read) >>= again (paramsTurn S) >>= k).Same (k r)
        rw [h]
        exact ((same_pure_bind (Sum.inr r) _).bind k).trans (same_pure_bind r k)
      refine (follows_read_bind hp (hnil acc) (fun file heof _ => ?_) ?_).same hsame
      · have htake : takeParams p (Buf.strncpy bufLen (content []), file) = .ok (.inr (-2, p, file)) := by
          have hopen : ¬ Closes (content []) := by decide +kernel
          rw [takeParams_eq p file (by decide), if_neg hopen, if_pos heof]
        obtain ⟨a, ha, hQ⟩ := hend p file heof
        exact ⟨a, (hleave htake _).mpr ha, hQ⟩
      · intro line file hne hshort hproper hbroken heof hlt
        have hparams := takeParams_eq p file (strlen_content_lt hshort)
        by_cases hc : Closes (content line)
        · have htake : takeParams p (Buf.strncpy bufLen (content line), file) = .ok (.inr (0, p, file)) := by
            rw [hparams, if_pos hc]
          have hmore : (fun c => More acc (content line :: c)) = Behind acc :=
            funext fun c => propext (hcloses acc _ c hc)
          rw [hmore]
          exact (hdone p acc file hold hproper hbroken heof hlt).same (hleave htake)
        · by_cases hlast : file.eof = true
          · have htake : takeParams p (Buf.strncpy bufLen (content line), file) = .ok (.inr (-2, p, file)) := by
              rw [hparams, if_neg hc, if_pos hlast]
            obtain ⟨hscans, hfalse⟩ := heof.mp hlast
            rw [hscans, ← hbroken, hfalse]
            exact (follows_end (hend p file hlast)).same (hleave htake)
          · obtain ⟨p', hcopy, hold'⟩ := copy_holds hold (content line)
            have htake : takeParams p (Buf.strncpy bufLen (content line), file) = .ok (.inl (p', file)) := by
              rw [hparams, if_neg hc, if_neg hlast, hcopy]
              rfl
            have hgoes : (turned (Buf.strncpy bufLen (content line), file)).Same
                (loop (paramsTurn S) (p', file) >>= k) := by
              change (done (takeParams p _) >>= again (paramsTurn S) >>= k).Same _
              rw [htake]
              exact (same_pure_bind (Sum.inl (p', file)) _).bind k
            have hmore : (fun c => More acc (content line :: c)) = More (copyLine acc (content line)) :=
              funext fun c => propext (hline acc _ c hc)
            rw [hmore, ← hbroken]
            refine (@ih _ (hn ▸ hlt) file p' _ ?_ hproper hold' rfl).same hgoes
            intro p'' acc'' file' hold'' hp'' hb'' he'' hlt''
            rw [hbroken] at hb'' ⊢
            exact hdone p'' acc'' file' hold'' hp'' hb'' he'' (hlt''.trans hlt)

theorem params_start (S : System φ σ) (array : Buf 4096) : ∃ p, Holds p emptyBuf ∧
    ∀ config, (getFilterParams S config array).Same (loop (paramsTurn S) (p, config)) := by
  obtain ⟨array', hwrite, tail, hbytes⟩ :=
    Buf.write_start (b := array) (s := []) (r := array.bytes) (t := [0]) rfl (by decide)
  have hwrite : array.write 0 [0] = some array' := hwrite
  refine ⟨⟨array', 0, 4096⟩, ⟨rfl, rfl, rfl, by decide, tail, hbytes⟩, fun config => ?_⟩
  rw [getFilterParams, hwrite]
  exact same_pure_bind array' _

theorem follows_getFilterParams (array : Buf 4096) (hp : Proper config.rest) :
    Follows (fun _ => True) (fun c => ∀ e ∈ c, ¬ Closes e) (scans config.rest) config.broken
      (getFilterParams S config array) := by
  obtain ⟨p, hold, hsame⟩ := params_start S array
  have hdone (a : Int × Params × Stream) : (pure a : Comp Fault _).Returns fun _ => True :=
    ⟨a, yields_pure.mpr rfl, trivial⟩
  have hloop : Follows (fun _ => True) (fun c => ∀ e ∈ c, ¬ Closes e) (scans config.rest) config.broken
      (loop (paramsTurn S) (p, config) >>= pure) :=
    follows_params (fun _ c => ∀ e ∈ c, ¬ Closes e) (fun _ _ => False) (by simp)
      (fun _ e c h => iff_of_false (fun hall => hall e List.mem_cons_self h) id)
      (fun _ e c h => by rw [List.forall_mem_cons, and_iff_right h]) (fun _ _ _ => hdone _)
      (fun _ _ _ _ _ _ _ _ => follows_done (fun _ => id) (hdone _)) hp hold
  exact hloop.same ((hsame config).trans (same_bind_pure _).symm)

/-! ## The list of filters -/

/-- Between `w` and the end of the call this filter has been created. -/
def Created (w : World φ σ) (r : Result φ σ) (a : Addr) : Prop := w.heap.size ≤ a ∧ a < r.world.heap.size

/-- Either nothing is returned, with an error, and the filters that were created have been freed once each; or they are
returned and alive, and nothing has been freed. -/
structure Settled (w : World φ σ) (r : Result φ σ) : Prop where
  failed : r.err ≠ none →
    r.ret = none ∧ ∃ gone, r.world.freed = w.freed ++ gone ∧ gone.Nodup ∧ ∀ a, a ∈ gone ↔ Created w r a
  loaded : r.err = none →
    r.world.freed = w.freed ∧ ∃ l, r.world.heap.Chain r.ret l ∧ ∀ a, a ∈ addrs l ↔ Created w r a
  frame : ∀ a < w.heap.size, r.world.heap.get? a = w.heap.get? a
  size : w.heap.size ≤ r.world.heap.size

/-- All the filters created since `w₀` are in the list, and nothing has been freed. -/
structure Built (w₀ w : World φ σ) (filters lastFilter : Option Addr) (l : List (Addr × φ)) : Prop where
  linked : LinkedTo w₀.heap { heap := w.heap, filters, lastFilter } l
  created : ∀ a, w₀.heap.size ≤ a → a < w.heap.size → a ∈ addrs l
  freed : w.freed = w₀.freed

variable {w₀ : World φ σ} {filters lastFilter : Option Addr}

theorem Built.mem_iff (h : Built w₀ w filters lastFilter l) {a : Addr} :
    a ∈ addrs l ↔ w₀.heap.size ≤ a ∧ a < w.heap.size := by
  refine ⟨fun ha => ⟨h.linked.new a ha, ?_⟩, fun ha => h.created a ha.1 ha.2⟩
  obtain ⟨_, _, _, hget⟩ := h.linked.chain.get_of_addr ha
  exact lt_size_of_get? hget

theorem built_start (w : World φ σ) : Built w w none none [] where
  linked := ⟨rfl, rfl, by simp, fun _ _ => rfl, Nat.le_refl _⟩
  created := fun a hle hlt => absurd hlt (Nat.not_lt.mpr hle)
  freed := rfl

theorem Built.settled (h : Built w₀ w filters lastFilter l) :
    Settled w₀ { ret := filters, err := none, world := w } where
  failed := fun hne => absurd rfl hne
  loaded := fun _ => ⟨h.freed, l, h.linked.chain, fun _ => h.mem_iff⟩
  frame := h.linked.frame
  size := h.linked.size

theorem Built.giveUp (h : Built w₀ w filters lastFilter l) (S : System φ σ) (err : EvfErr) :
    ∃ r, (giveUp S filters w err).Yields (.ok (.inr r)) ∧ Settled w₀ r := by
  obtain ⟨w', hyields, hfreed, hsize, hget⟩ := free_chain (S := S) h.linked.chain
  refine ⟨{ ret := none, err := some err, world := w' }, ?_, ?_⟩
  · rw [Reader.giveUp, yields_bind_ok hyields]
    exact yields_pure.mpr rfl
  · constructor
    · refine fun _ => ⟨rfl, addrs l, by rw [hfreed, h.freed], h.linked.chain.nodup, fun a => ?_⟩
      rw [h.mem_iff, Created, hsize]
    · exact fun hnone => nomatch hnone
    · intro a ha
      rw [hget, if_neg fun hmem => Nat.not_lt_of_ge (h.linked.new a hmem) ha]
      exact h.linked.frame a ha
    · rw [hsize]
      exact h.linked.size

theorem size_linkFilter (s : Linked φ) (v : φ) : (linkFilter s v).heap.size = s.heap.size + 1 := by
  unfold linkFilter
  dsimp only
  split <;> simp

theorem Built.link (h : Built w₀ w filters lastFilter l) (tmp : φ) (state : σ) :
    Built w₀ { w with heap := (linkFilter { heap := w.heap, filters, lastFilter } tmp).heap, state }
      (linkFilter { heap := w.heap, filters, lastFilter } tmp).filters
      (linkFilter { heap := w.heap, filters, lastFilter } tmp).lastFilter (l ++ [(w.heap.size, tmp)]) where
  linked := linkFilter_linked h.linked tmp
  created := by
    intro a hle hlt
    rw [size_linkFilter] at hlt
    rw [addrs, List.map_append, List.mem_append]
    rcases Nat.lt_or_eq_of_le (Nat.le_of_lt_succ hlt) with hold | hnew
    · exact Or.inl (h.created a hle hold)
    · exact Or.inr (by simp [show a = w.heap.size from hnew])
  freed := h.freed

/-! ## The filters of a file -/

theorem paramsRead_same {s : Loading φ σ} {name params : CString} (file : Stream)
    (hname : s.filter.string 0 = some name) (hparams : p.array.string 0 = some params) :
    (paramsRead S s (0, p, file)).Same
      (match S.evfFilterLoad name params s.world.state with
        | (.error err, state) => giveUp S s.filters { s.world with state } err
        | (.ok tmp, state) => link s p.array file tmp state) := by
  rw [paramsRead, if_neg (by simp), hname]
  refine (same_pure_bind name _).trans ?_
  rw [hparams]
  exact same_pure_bind params _

/-- A turn that comes to a result leaves the loop. -/
theorem leave_returns {x : Comp Fault (Turned φ σ)} {r : Result φ σ} (hx : x.Yields (.ok (.inr r)))
    (hr : Settled w₀ r) : (x >>= again (loadTurn S)).Returns (Settled w₀) :=
  ⟨r, (yields_bind_ok hx).mpr (yields_pure.mpr rfl), hr⟩

theorem Built.giveUp_returns (h : Built w₀ w filters lastFilter l) (err : EvfErr) :
    (Reader.giveUp S filters w err >>= again (loadTurn S)).Returns (Settled w₀) := by
  obtain ⟨r, hr, hsettled⟩ := h.giveUp S err
  exact leave_returns hr hsettled

theorem Built.eof_returns {s : Loading φ σ} {file : Stream} (h : Built w₀ s.world s.filters s.lastFilter l)
    (ret : Int) (buf : Buf 256) (heof : file.eof = true) :
    (nameRead S s (ret, buf, file) >>= again (loadTurn S)).Returns (Settled w₀) := by
  rw [nameRead, if_pos heof]
  exact leave_returns (yields_pure.mpr rfl) h.settled

/-- A whole block has been read. With its filter in the list the loop goes on. -/
theorem follows_paramsRead {s : Loading φ σ} {file : Stream} {name : CString}
    (hbuilt : Built w₀ s.world s.filters s.lastFilter l) (hname : s.filter.string 0 = some name) (hold : Holds p acc)
    (heof : file.eof = true ↔ scans file.rest = [] ∧ file.broken = false)
    (hgo : ∀ (s' : Loading φ σ) (l' : List (Addr × φ)), s'.config = file →
      Built w₀ s'.world s'.filters s'.lastFilter l' →
      Follows (Settled w₀) (fun c => Begins S.evfFilterLoad c s'.world.state) (scans file.rest) file.broken
        (loop (loadTurn S) s')) :
    Follows (Settled w₀)
      (fun c => ∃ filter state, S.evfFilterLoad name acc.1 s.world.state = (.ok filter, state) ∧
        Begins S.evfFilterLoad c state)
      (scans file.rest) file.broken (paramsRead S s (0, p, file) >>= again (loadTurn S)) := by
  refine Follows.same ?_ ((paramsRead_same file hname hold.string).bind (again (loadTurn S)))
  cases hfilter : S.evfFilterLoad name acc.1 s.world.state with
  | mk loaded state =>
      cases loaded with
      | error err =>
          have hbuilt' : Built w₀ { s.world with state } s.filters s.lastFilter l :=
            ⟨hbuilt.linked, hbuilt.created, hbuilt.freed⟩
          refine follows_done (fun c => ?_) (hbuilt'.giveUp_returns err)
          rintro ⟨filter, s₁, hok, -⟩
          cases hok
      | ok tmp =>
          have hlinked := hbuilt.link tmp state
          dsimp only
          by_cases hend : file.eof = true
          · obtain ⟨hscans, hfalse⟩ := heof.mp hend
            rw [hscans, hfalse, link, if_pos hend]
            exact follows_end (leave_returns (yields_pure.mpr rfl) hlinked.settled)
          · rw [link, if_neg hend]
            have hbehind : (fun c => ∃ filter s₁, (Except.ok tmp, state) =
                ((Except.ok filter : Except EvfErr φ), s₁) ∧ Begins S.evfFilterLoad c s₁) =
                fun c => Begins S.evfFilterLoad c state := by
              refine funext fun c => propext ⟨?_, fun h => ⟨tmp, state, rfl, h⟩⟩
              rintro ⟨filter, s₁, hok, hbegins⟩
              obtain ⟨-, rfl⟩ := Prod.mk.inj hok
              exact hbegins
            rw [hbehind]
            exact (hgo { s with config := file, params := p.array, filters := _, lastFilter := _, world := _ } _ rfl
              hlinked).same (same_pure_bind _ _)

/-- The name of a filter has been read, or not. Behind the block the loop goes on. -/
theorem follows_nameRead {s : Loading φ σ} {file : Stream} {line : CString} {ret : Int} {buf : Buf 256}
    (hbuilt : Built w₀ s.world s.filters s.lastFilter l) (hp : Proper file.rest)
    (hnone : nameIn line = none → ret = -1)
    (hsome : ∀ name, nameIn line = some name → ret = 0 ∧ buf.string 0 = some name)
    (heof : file.eof = true ↔ scans file.rest = [] ∧ file.broken = false)
    (hgo : ∀ (s' : Loading φ σ) (l' : List (Addr × φ)), Proper s'.config.rest → s'.config.broken = file.broken →
      (scans s'.config.rest).length < (scans file.rest).length → Built w₀ s'.world s'.filters s'.lastFilter l' →
      Follows (Settled w₀) (fun c => Begins S.evfFilterLoad c s'.world.state) (scans s'.config.rest) file.broken
        (loop (loadTurn S) s')) :
    Follows (Settled w₀) (fun c => Begins S.evfFilterLoad (line :: c) s.world.state) (scans file.rest) file.broken
      (nameRead S s (ret, buf, file) >>= again (loadTurn S)) := by
  by_cases hlast : file.eof = true
  · obtain ⟨hscans, hfalse⟩ := heof.mp hlast
    rw [hscans, hfalse]
    exact follows_end (hbuilt.eof_returns ret buf hlast)
  rw [nameRead, if_neg hlast]
  cases hname : nameIn line with
  | none =>
      rw [if_pos (by simp [hnone hname])]
      refine follows_done (fun c hbegins => ?_) (hbuilt.giveUp_returns .nofname)
      obtain ⟨name, hsome, -⟩ := begins_cons.mp hbegins
      cases hname.symm.trans hsome
  | some name =>
      obtain ⟨rfl, hstring⟩ := hsome name hname
      rw [if_neg (by simp)]
      obtain ⟨p, hold, hparams⟩ := params_start S s.params
      have hread := (((hparams file).bind (paramsRead S { s with filter := buf })).bind
        (again (loadTurn S))).trans (same_bind_bind _ _ _)
      have hmore : (fun c => Begins S.evfFilterLoad (line :: c) s.world.state) =
          fun c => BeginsFrom S.evfFilterLoad c s.world.state (.inside name emptyBuf) := by
        refine funext fun c => propext (begins_cons.trans ?_)
        simp only [hname, Option.some.injEq, exists_eq_left']
        rfl
      rw [hmore]
      refine (follows_params
        (fun acc c => BeginsFrom S.evfFilterLoad c s.world.state (.inside name acc))
        (fun acc c => ∃ filter state, S.evfFilterLoad name acc.1 s.world.state = (.ok filter, state) ∧
          Begins S.evfFilterLoad c state)
        (fun _ => beginsFrom_nil) (fun _ _ _ hc => beginsFrom_closes hc) (fun _ _ _ hc => beginsFrom_line hc)
        (fun p after _ => ?_) ?_ hp hold).same hread
      · rw [paramsRead, if_pos (by simp)]
        exact hbuilt.giveUp_returns .noparams
      · intro p acc after hold hp' hbroken' heof' hlt
        rw [← hbroken']
        refine follows_paramsRead (s := { s with filter := buf }) hbuilt hstring hold heof' ?_
        rintro s' l' rfl hbuilt'
        rw [hbroken']
        exact hgo s' l' hp' hbroken' hlt hbuilt'

/-- The filters of the blocks are linked one after the other, until one of them is the end or an error. -/
theorem follows_load {s : Loading φ σ} (hbuilt : Built w₀ s.world s.filters s.lastFilter l)
    (hp : Proper s.config.rest) :
    Follows (Settled w₀) (fun c => Begins S.evfFilterLoad c s.world.state) (scans s.config.rest) s.config.broken
      (loop (loadTurn S) s) := by
  obtain ⟨n, hn⟩ : ∃ n, (scans s.config.rest).length = n := ⟨_, rfl⟩
  induction n using Nat.strongRecOn generalizing s l with
  | ind n ih =>
      let named (read : LineBuf × Stream) : Comp Fault (Result φ σ) :=
        done (takeName s.filter read) >>= nameRead S s >>= again (loadTurn S)
      have hsame : (loop (loadTurn S) s).Same (evfReadLinePreprocess (S.stack bufLen) s.config >>= named) :=
        (same_loop _ _).trans (((same_bind_bind _ _ _).bind _).trans (same_bind_bind _ _ _))
      have hnamed {read : LineBuf × Stream} {r : Int × Buf 256 × Stream} (h : takeName s.filter read = .ok r) :
          (named read).Same (nameRead S s r >>= again (loadTurn S)) := by
        change (done (takeName s.filter read) >>= nameRead S s >>= again (loadTurn S)).Same _
        rw [h]
        exact (same_pure_bind r _).bind _
      refine Follows.same (follows_read_bind hp begins_nil (fun file heof _ => ?_) ?_) hsame
      · obtain ⟨ret, buf, htake, -⟩ := takeName_eq s.filter (content []) file (by decide)
        obtain ⟨r, hr, hsettled⟩ := hbuilt.eof_returns ret buf heof
        exact ⟨r, (hnamed htake _).mpr hr, hsettled⟩
      · intro line file hne hshort hproper hbroken heof hlt
        obtain ⟨ret, buf, htake, hnone, hsome⟩ :=
          takeName_eq s.filter (content line) file (strlen_content_lt hshort)
        rw [← hbroken]
        refine (follows_nameRead hbuilt hproper hnone hsome heof fun s' l' hp' hbroken' hlt' hbuilt' => ?_).same
          (hnamed htake)
        rw [← hbroken']
        exact ih _ (hn ▸ hlt'.trans hlt) hbuilt' hp' rfl

end Evfilter.Reader
