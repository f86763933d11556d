import Evfilter.Reader.Loading

/-!
# The two models of the loader

On texts that can be read to their end the functions that fill arrays and link filters in a
heap do what those of `Evfilter.Loader` do, which work on strings and lists.
-/

namespace Evfilter.Reader
open Lib Comp Heap Line Param Loader

/-- The computation comes to what the outcome says, with results that are related by `R`. -/
def Agrees {α β : Type} (R : α → β → Prop) (x : Comp Fault α) : Outcome β → Prop
  | .done b => x.Returns fun a => R a b
  | .overflow => x.Yields (.error .overflow)
  | .forever => ¬ x.Stops

/-- The file has been read up to the text. -/
structure ReadTo (file : Stream) (text : CString) : Prop where
  rest : file.rest = text.bytes
  broken : file.broken = false
  eof : file.eof = true ↔ feof text

variable {α β γ δ φ σ : Type} {R : α → β → Prop} {Q : γ → δ → Prop} {x y : Comp Fault α} {o : Outcome β}
  {f : α → Comp Fault γ} {o' : Outcome δ} {config : Stream} {text : CString} {S : System φ σ}

/-! ## Rules -/

theorem Agrees.same (hy : Agrees R y o) (h : x.Same y) : Agrees R x o := by
  cases o with
  | done b => exact hy.imp fun a ha => ⟨(h _).mpr ha.1, ha.2⟩
  | overflow => exact (h _).mpr hy
  | forever => exact fun hx => hy (h.symm.stops hx)

theorem agrees_pure {a : α} {b : β} (h : R a b) : Agrees R (pure a) (.done b) := ⟨a, yields_pure.mpr rfl, h⟩

/-- Results are passed on, and what comes to none goes on so. -/
theorem Agrees.bind (hx : Agrees R x o) (hdone : ∀ a b, o = .done b → R a b → Agrees Q (f a) o')
    (hoverflow : o = .overflow → o' = .overflow) (hforever : o = .forever → o' = .forever) :
    Agrees Q (x >>= f) o' := by
  cases o with
  | done b =>
      obtain ⟨a, ha, hR⟩ := hx
      exact (hdone a b rfl hR).same fun r => yields_bind_ok ha
  | overflow =>
      rw [hoverflow rfl]
      exact yields_bind.mpr (Or.inr ⟨_, hx, rfl⟩)
  | forever =>
      rw [hforever rfl]
      exact fun hstops => hx hstops.of_bind

/-! ## Lines -/

theorem content_eq (line : CString) : Reader.content line.bytes = Loader.content line := by
  rw [Reader.content, CString.ofBytes_bytes]
  rfl

theorem readTo_next (hrest : config.rest = text.bytes) (hbroken : config.broken = false) :
    ReadTo (Reader.next config) text.next := by
  have hafter : after config.rest = text.next.bytes := by rw [hrest]; rfl
  refine ⟨hafter, hbroken, ?_⟩
  rw [Reader.next, hafter, Stream.eof_past_wanted, hbroken]
  simp [feof]

theorem read_agrees (str : LineBuf) (hrest : config.rest = text.bytes) (hbroken : config.broken = false) :
    Agrees (fun a b => a.1 = Buf.strncpy bufLen b.1 ∧ b.1.strlen < bufLen ∧ ReadTo a.2 b.2)
      (Reader.evfReadLinePreprocess str config) (Loader.evfReadLinePreprocess text) := by
  obtain ⟨n, hn⟩ : ∃ n, text.strlen = n := ⟨_, rfl⟩
  induction n using Nat.strongRecOn generalizing config text with
  | ind n ih =>
      by_cases hp : Proper config.rest
      · by_cases hnil : text.bytes = []
        · rw [Loader.read_nil hnil]
          have htext : Reader.content [] = text :=
            Reader.content_nil.trans (CString.ext (Eq.trans rfl hnil.symm))
          refine Agrees.same (agrees_pure ⟨by rw [htext], ?_, ?_⟩) (Reader.read_nil (hrest.trans hnil) hbroken)
          · rw [CString.strlen, hnil]
            decide
          · refine ⟨hnil.symm, hbroken, ?_⟩
            rw [Stream.eof_past_wanted, hbroken]
            simp [feof, hnil]
        have hne : config.rest ≠ [] := hrest ▸ hnil
        have hline : config.rest.takeWhile (· != newline) = text.line.bytes := by rw [hrest]; rfl
        have hlineNe : text.line.bytes ≠ [] := hline ▸ hp.line_ne_nil hne
        have hscans := scans_cons hne
        rw [hline] at hscans
        rcases Nat.lt_or_ge text.line.strlen bufLen with hshort | hlong
        · have hnext := readTo_next hrest hbroken
          have hlast : scans (after config.rest) = [] ∧ config.broken = false ↔ feof text.next := by
            rw [← eof_next]
            exact hnext.eof
          have hends : (Reader.content text.line.bytes).bytes ≠ [] ∨
              scans (after config.rest) = [] ∧ config.broken = false ↔
              (Loader.content text.line).bytes ≠ [] ∨ feof text.next := by rw [content_eq, hlast]
          rw [Loader.read_line hlineNe hshort]
          split
          · rename_i hdone
            refine Agrees.same (agrees_pure ⟨by rw [content_eq], ?_, hnext⟩)
              (Reader.read_line str hp hscans hshort (hends.mpr hdone))
            rw [← content_eq]
            exact Nat.lt_of_le_of_lt (strlen_content_le _) hshort
          · rename_i hgoes
            have hlt : text.next.strlen < n := by
              rw [CString.strlen, ← hnext.rest, ← hn, CString.strlen, ← hrest]
              exact length_after_lt hne
            exact (ih _ hlt hnext.rest hbroken rfl).same (Reader.read_skip str hp hscans hshort (hgoes ∘ hends.mp))
        · rw [Loader.read_long hlong]
          exact (Reader.read_long str config hscans hlong _).mpr (yields_fault.mpr rfl)
      · have hnl : text.bytes.head? = some newline := by
          rw [← hrest]
          exact not_not.mp hp
        rw [Loader.read_newline hnl]
        exact Reader.read_newline hp

/-! ## Blocks -/

/-- What `get_filter_name` leaves in its array, if it returns 0. -/
def NameRead (a : Int × Buf 256 × Stream) (b : Option CString × CString) : Prop :=
  ReadTo a.2.2 b.2 ∧ (b.1 = none → a.1 = -1) ∧ ∀ name, b.1 = some name → a.1 = 0 ∧ a.2.1.string 0 = some name

theorem name_agrees (buf : Buf 256) (hrest : config.rest = text.bytes) (hbroken : config.broken = false) :
    Agrees NameRead (Reader.getFilterName S config buf) (Loader.getFilterName text) := by
  refine (read_agrees (S.stack bufLen) hrest hbroken).bind ?_ (fun h => ?_) (fun h => ?_)
  · rintro ⟨str, file⟩ ⟨line, rest⟩ hread ⟨rfl, hlen, hto⟩
    obtain ⟨ret, buf', htake, hnone, hsome⟩ := takeName_eq buf line file hlen
    rw [Loader.getFilterName, hread, htake]
    exact agrees_pure ⟨hto, hnone, hsome⟩
  · rw [Loader.getFilterName, h]
  · rw [Loader.getFilterName, h]

/-- What `get_filter_params` leaves in its array, if it returns 0. -/
def ParamsRead (a : Int × Params × Stream) (b : Option CString × CString) : Prop :=
  ReadTo a.2.2 b.2 ∧ (b.1 = none → a.1 ≠ 0) ∧
    ∀ params, b.1 = some params → a.1 = 0 ∧ a.2.1.array.string 0 = some params

theorem params_agrees {p : Params} {acc : CString × Nat} (hold : Holds p acc) (hrest : config.rest = text.bytes)
    (hbroken : config.broken = false) :
    Agrees ParamsRead (loop (paramsTurn S) (p, config)) (Loader.getFilterParams text acc) := by
  have hsame (p : Params) (config : Stream) : (loop (paramsTurn S) (p, config)).Same
      (Reader.evfReadLinePreprocess (S.stack bufLen) config >>= fun read =>
        done (takeParams p read) >>= again (paramsTurn S)) :=
    (same_loop _ _).trans (same_bind_bind _ _ _)
  have hturn {p : Params} {config : Stream} {read : LineBuf × Stream}
      {r : (Params × Stream) ⊕ (Int × Params × Stream)}
      (hyields : (Reader.evfReadLinePreprocess (S.stack bufLen) config).Yields (.ok read))
      (htake : takeParams p read = .ok r) : (loop (paramsTurn S) (p, config)).Same (again (paramsTurn S) r) := by
    refine ((hsame p config).trans fun r => yields_bind_ok hyields).trans ?_
    rw [htake]
    exact same_pure_bind r _
  have hread := read_agrees (S.stack bufLen) hrest hbroken
  fun_induction Loader.getFilterParams text acc generalizing p config with
  | case1 text acc houtcome =>
      rw [houtcome] at hread
      exact (hread.bind (fun _ _ h => by cases h) (fun _ => rfl) (fun h => by cases h)).same (hsame p config)
  | case2 text acc houtcome =>
      rw [houtcome] at hread
      exact (hread.bind (fun _ _ h => by cases h) (fun h => by cases h) (fun _ => rfl)).same (hsame p config)
  | case3 text acc line rest houtcome hcloses =>
      rw [houtcome] at hread
      obtain ⟨⟨str, file⟩, hyields, rfl, hlen, hto⟩ := hread
      have htake := takeParams_eq p file (show line.strlen < bufLen from hlen)
      rw [if_pos (show Closes line from hcloses)] at htake
      have hdone : ParamsRead (0, p, file) (some acc.1, rest) := by
        refine ⟨hto, fun h => absurd h (by simp), fun params h => ?_⟩
        cases h
        exact ⟨rfl, hold.string⟩
      exact Agrees.same (agrees_pure hdone) (hturn hyields htake)
  | case4 text acc line rest houtcome hopen hend =>
      rw [houtcome] at hread
      obtain ⟨⟨str, file⟩, hyields, rfl, hlen, hto⟩ := hread
      have htake := takeParams_eq p file (show line.strlen < bufLen from hlen)
      rw [if_neg (show ¬ Closes line from hopen), if_pos (hto.eof.mpr hend)] at htake
      have hdone : ParamsRead (-2, p, file) (none, rest) := by
        refine ⟨hto, fun _ hret => ?_, fun params h => by cases h⟩
        cases hret
      exact Agrees.same (agrees_pure hdone) (hturn hyields htake)
  | case5 text acc line rest houtcome hopen hend ih =>
      rw [houtcome] at hread
      obtain ⟨⟨str, file⟩, hyields, rfl, hlen, hto⟩ := hread
      have htake := takeParams_eq p file (show line.strlen < bufLen from hlen)
      obtain ⟨p', hcopy, hold'⟩ := copy_holds hold line
      rw [if_neg (show ¬ Closes line from hopen), if_neg (mt hto.eof.mp hend), hcopy] at htake
      exact (ih hold' hto.rest hto.broken (read_agrees _ hto.rest hto.broken)).same (hturn hyields htake)

/-! ## Files -/

/-- The filters returned are those of the list, or the error is the same one. -/
def Loaded (r : Result φ σ) (b : Except EvfErr (List φ) × σ) : Prop :=
  match b.1 with
  | .error err => r.ret = none ∧ r.err = some err
  | .ok filters => r.err = none ∧ r.world.state = b.2 ∧ ∃ l, r.world.heap.Chain r.ret l ∧ l.map Prod.snd = filters

variable {w₀ w : World φ σ} {filters lastFilter : Option Addr} {l : List (Addr × φ)} {state : σ} {err : EvfErr}

theorem giveUp_agrees (h : Built w₀ w filters lastFilter l) (err : EvfErr) (state : σ) :
    Agrees Loaded (Reader.giveUp S filters w err >>= again (loadTurn S)) (.done (.error err, state)) := by
  obtain ⟨w', hyields, -⟩ := free_chain (S := S) h.linked.chain
  have hgiveUp : (Reader.giveUp S filters w err).Yields (.ok (.inr { ret := none, err := some err, world := w' })) :=
    (yields_bind_ok hyields).mpr (yields_pure.mpr rfl)
  exact ⟨_, (yields_bind_ok hgiveUp).mpr (yields_pure.mpr rfl), rfl, rfl⟩

theorem getFilterParams_agrees (array : Buf 4096) (hto : ReadTo config text) :
    Agrees ParamsRead (Reader.getFilterParams S config array) (Loader.getFilterParams text emptyBuf) := by
  obtain ⟨p, hold, hsame⟩ := params_start S array
  exact (params_agrees hold hto.rest hto.broken).same (hsame config)

theorem loop_named (s : Reader.Loading φ σ) : (loop (loadTurn S) s).Same
    (Reader.getFilterName S s.config s.filter >>= fun read => nameRead S s read >>= again (loadTurn S)) :=
  (same_loop _ _).trans (same_bind_bind _ _ _)

/-- From the name of a filter on to the end of its parameters. -/
theorem block_agrees {s : Reader.Loading φ σ} {name rest : CString} {R : Result φ σ → δ → Prop}
    (hname : Agrees NameRead (Reader.getFilterName S s.config s.filter) (.done (some name, rest)))
    (hopen : ¬ feof rest)
    (hdone : ∀ a b, Loader.getFilterParams rest emptyBuf = .done b → ParamsRead a b →
      ∀ buf, buf.string 0 = some name →
        Agrees R (paramsRead S { s with filter := buf } a >>= again (loadTurn S)) o')
    (hoverflow : Loader.getFilterParams rest emptyBuf = .overflow → o' = .overflow)
    (hforever : Loader.getFilterParams rest emptyBuf = .forever → o' = .forever) :
    Agrees R (loop (loadTurn S) s) o' := by
  obtain ⟨⟨ret, buf, file⟩, hyields, hto, -, hsome⟩ := hname
  obtain ⟨rfl, hstring⟩ : ret = 0 ∧ buf.string 0 = some name := hsome name rfl
  have hgo : (Reader.getFilterName S s.config s.filter >>= fun read =>
      nameRead S s read >>= again (loadTurn S)).Same
      (nameRead S s (0, buf, file) >>= again (loadTurn S)) := fun r => yields_bind_ok hyields
  have hnamed := (loop_named s).trans hgo
  have hread : nameRead S s (0, buf, file) =
      Reader.getFilterParams S file s.params >>= paramsRead S { s with filter := buf } := by
    rw [nameRead, if_neg (mt hto.eof.mp hopen), if_neg (by simp)]
  rw [hread] at hnamed
  have hparams := getFilterParams_agrees (S := S) s.params hto
  refine (hparams.bind (fun a b hb hab => ?_) hoverflow hforever).same (hnamed.trans (same_bind_bind _ _ _))
  exact hdone a b hb hab buf hstring

/-- The filter is loaded with what is in the arrays. -/
theorem paramsRead_loads {s : Reader.Loading φ σ} {a : Int × Params × Stream} {name params rest : CString}
    (hab : ParamsRead a (some params, rest)) (hname : s.filter.string 0 = some name) :
    ∃ (p : Params) (file : Stream), ReadTo file rest ∧ (paramsRead S s a).Same
      (match S.evfFilterLoad name params s.world.state with
        | (.error err, state) => Reader.giveUp S s.filters { s.world with state } err
        | (.ok tmp, state) => link s p.array file tmp state) := by
  obtain ⟨ret, p, file⟩ := a
  obtain ⟨hto, -, hsome⟩ := hab
  obtain ⟨rfl, hstring⟩ : ret = 0 ∧ p.array.string 0 = some params := hsome params rfl
  exact ⟨p, file, hto, paramsRead_same file hname hstring⟩

theorem loadLoop_agrees {s : Reader.Loading φ σ} {listed : List φ}
    (hbuilt : Built w₀ s.world s.filters s.lastFilter l) (hlisted : l.map Prod.snd = listed)
    (hstate : s.world.state = state) (hrest : s.config.rest = text.bytes)
    (hbroken : s.config.broken = false) :
    Agrees Loaded (loop (loadTurn S) s) (loadLoop S.evfFilterLoad text listed state) := by
  have hname := name_agrees (S := S) s.filter hrest hbroken
  fun_induction loadLoop S.evfFilterLoad text listed state generalizing s l with
  | case1 text listed state houtcome =>
      rw [houtcome] at hname
      exact (hname.bind (fun _ _ h => by cases h) (fun _ => rfl) (fun h => by cases h)).same (loop_named s)
  | case2 text listed state houtcome =>
      rw [houtcome] at hname
      exact (hname.bind (fun _ _ h => by cases h) (fun h => by cases h) (fun _ => rfl)).same (loop_named s)
  | case3 text listed state ret rest houtcome hend =>
      rw [houtcome] at hname
      refine (hname.bind (fun a b hb hab => ?_) (fun h => by cases h) (fun h => by cases h)).same (loop_named s)
      cases hb
      rw [nameRead, if_pos (hab.1.eof.mpr hend)]
      refine Agrees.same (agrees_pure ?_) (same_pure_bind (Sum.inr _) _)
      exact ⟨rfl, hstate, l, hbuilt.linked.chain, hlisted⟩
  | case4 text listed state rest hopen houtcome =>
      rw [houtcome] at hname
      refine (hname.bind (fun a b hb hab => ?_) (fun h => by cases h) (fun h => by cases h)).same (loop_named s)
      cases hb
      rw [nameRead, if_neg (mt hab.1.eof.mp hopen), if_pos (by simp [hab.2.1 rfl])]
      exact giveUp_agrees hbuilt .nofname state
  | case5 text listed state rest hopen name houtcome hparams =>
      rw [houtcome] at hname
      refine block_agrees hname hopen (fun a b hb => ?_) (fun _ => rfl) (fun h => ?_)
      · cases hparams.symm.trans hb
      · cases hparams.symm.trans h
  | case6 text listed state rest hopen name houtcome hparams =>
      rw [houtcome] at hname
      refine block_agrees hname hopen (fun a b hb => ?_) (fun h => ?_) (fun _ => rfl)
      · cases hparams.symm.trans hb
      · cases hparams.symm.trans h
  | case7 text listed state rest hopen name houtcome rest' hparams =>
      rw [houtcome] at hname
      refine block_agrees hname hopen (fun a b hb hab buf _ => ?_) (fun h => ?_) (fun h => ?_)
      · cases hparams.symm.trans hb
        rw [paramsRead, if_pos (hab.2.1 rfl)]
        exact giveUp_agrees hbuilt .noparams state
      · cases hparams.symm.trans h
      · cases hparams.symm.trans h
  | case8 text listed state rest hopen name houtcome params rest' hparams err state' hload =>
      rw [houtcome] at hname
      refine block_agrees hname hopen (fun a b hb hab buf hbuf => ?_) (fun h => ?_) (fun h => ?_)
      · cases hparams.symm.trans hb
        obtain ⟨p, file, -, hsame⟩ := paramsRead_loads (S := S) (s := { s with filter := buf }) hab hbuf
        simp only [hstate, hload] at hsame
        have hbuilt' : Built w₀ { s.world with state := state' } s.filters s.lastFilter l :=
          ⟨hbuilt.linked, hbuilt.created, hbuilt.freed⟩
        exact (giveUp_agrees hbuilt' err state').same (hsame.bind _)
      · cases hparams.symm.trans h
      · cases hparams.symm.trans h
  | case9 text listed state rest hopen name houtcome params rest' hparams tmp state' hload hend =>
      rw [houtcome] at hname
      refine block_agrees hname hopen (fun a b hb hab buf hbuf => ?_) (fun h => ?_) (fun h => ?_)
      · cases hparams.symm.trans hb
        obtain ⟨p, file, hto, hsame⟩ := paramsRead_loads (S := S) (s := { s with filter := buf }) hab hbuf
        simp only [hstate, hload, link, if_pos (hto.eof.mpr hend)] at hsame
        have hlinked := hbuilt.link tmp state'
        refine Agrees.same (agrees_pure ?_) ((hsame.bind _).trans (same_pure_bind (Sum.inr _) _))
        exact ⟨rfl, rfl, _, hlinked.linked.chain, by rw [List.map_append, hlisted]; rfl⟩
      · cases hparams.symm.trans h
      · cases hparams.symm.trans h
  | case10 text listed state rest hopen name houtcome params rest' hparams tmp state' hload hend houtcome' ih =>
      rw [houtcome] at hname
      refine block_agrees hname hopen (fun a b hb hab buf hbuf => ?_) (fun h => ?_) (fun h => ?_)
      · cases hparams.symm.trans hb
        obtain ⟨p, file, hto, hsame⟩ := paramsRead_loads (S := S) (s := { s with filter := buf }) hab hbuf
        simp only [hstate, hload, link, if_neg (mt hto.eof.mp hend)] at hsame
        have hlinked := hbuilt.link tmp state'
        have hlisted' : (l ++ [(s.world.heap.size, tmp)]).map Prod.snd = listed ++ [tmp] := by
          rw [List.map_append, hlisted]
          rfl
        refine Agrees.same ?_ ((hsame.bind _).trans (same_pure_bind (Sum.inl _) _))
        exact ih hlinked hlisted' rfl hto.rest hto.broken (name_agrees _ hto.rest hto.broken)
      · cases hparams.symm.trans h
      · cases hparams.symm.trans h

/-- `evf_load_filters` on a file that can be read, with NUL bytes nowhere in it -/
theorem load_agrees (S : System φ σ) (path : CString) (w : World φ σ) (content : Except Int32 CString) (state : σ)
    (hopen : match content with
      | .error errno => S.fopen path w.state = (.error errno, state)
      | .ok text => ∃ config, S.fopen path w.state = (.ok config, state) ∧ config.rest = text.bytes ∧
          config.broken = false) :
    Agrees Loaded (Reader.evfLoadFilters S path w) (Loader.evfLoadFilters S.evfFilterLoad content state) := by
  cases content with
  | error errno =>
      rw [Reader.evfLoadFilters, hopen]
      exact agrees_pure ⟨rfl, rfl⟩
  | ok text =>
      obtain ⟨config, hopen, hrest, hbroken⟩ := hopen
      rw [Reader.evfLoadFilters, hopen]
      let s : Reader.Loading φ σ :=
        { config, filter := S.stack 256, params := S.stack 4096, filters := none, lastFilter := none,
          world := { w with state } }
      exact loadLoop_agrees (s := s) (built_start _) rfl rfl hrest hbroken

end Evfilter.Reader
