import Evfilter.Filters.Network
import Evfilter.Handle.Dangling

/-!
# Lines that come and go

The lines of a running program. They are made of the filters of a profile, process events, and are freed when their
devices are gone. Filters know each other by `next` and by the handles of the registry. Events get to filters in memory
only, if each GetFromHandle that is freed is taken from its handle.
-/

namespace Evfilter.Filters.Lifetimes
open Lib Handle

/-- The `modify` of GetFromHandle, as it is attached. -/
def getFromHandleSend : SendFn := 0

/-- What an alloc function is called with. `evFlag` is what `malloc` leaves in the field of a FilterToHandle. -/
inductive Alloc
  | inner (params : Params)
  | dump (file : Nat)
  | copyToHandle (name : CString)
  | filterToHandle (name : CString) (type code : Int32) (evFlag : Bool)
  | getFromHandle (name : CString)

/-- Whatever the filter is given, it does not divide where the processor stops the program. -/
def Alloc.DivisorsOk : Alloc → Prop
  | inner params => params.alloc.DivisorsOk
  | _ => True

instance : DecidablePred Alloc.DivisorsOk
  | .inner params => inferInstanceAs (Decidable params.alloc.DivisorsOk)
  | .dump _ | .copyToHandle _ | .filterToHandle _ _ _ _ | .getFromHandle _ => isTrue trivial

/-- A filter of a profile, with what `malloc` returns for it, and whether there is memory for a new handle. -/
structure Entry where
  self : Option FilterPtr
  alloc : Alloc
  malloc : Bool

/-- Filters, each at its address. -/
abbrev FilterList := List (FilterPtr × AnyFilter)

/-! ## Loading -/

/-- The handle of a filter that sends to one. -/
def senderHandle (users : Sys) (name : CString) (malloc : Bool) : Sys × Option Addr :=
  match evfHandleCreate users.reg name malloc with
  | (reg, none) => ({ users with reg := reg }, none)
  | (reg, some self) => ({ users with reg := reg, senders := self :: users.senders }, some self)

/-- A filter is put on a handle. -/
def receive (users : Sys) (name : CString) (filter : FilterPtr) (malloc : Bool) : Sys × Bool :=
  match evfHandleAttach users.reg name filter getFromHandleSend malloc with
  | (reg, 0, _) =>
    ({ users with reg := reg, receivers := ⟨filter, storedName name, attachHandle users.reg name⟩ :: users.receivers },
      true)
  | (reg, _, _) => ({ users with reg := reg }, false)

/-- Without its handle a filter is freed at once. -/
def Alloc.run (users : Sys) (self : FilterPtr) (malloc : Bool) : Alloc → Sys × Option AnyFilter
  | inner params => (users, some (.inner params.alloc))
  | dump file => (users, some (.dump file))
  | copyToHandle name =>
    let (users, handle) := senderHandle users name malloc
    (users, handle.map fun handle => .copyToHandle ⟨handle⟩)
  | filterToHandle name type code evFlag =>
    let (users, handle) := senderHandle users name malloc
    (users, handle.map fun handle => .filterToHandle (evfFilterToHandleAlloc handle type code evFlag))
  | getFromHandle name =>
    let (users, attached) := receive users name self malloc
    (users, if attached then some .getFromHandle else none)

/-- What has been loaded. `ok` is false if something failed. -/
structure Loaded where
  users : Sys
  filters : FilterList
  ok : Bool

/-- `evf_load_filters`, without freeing. -/
def evfLoadFilters (users : Sys) : List Entry → Loaded
  | [] => ⟨users, [], true⟩
  | entry :: entries =>
    match entry.self with
    | none => ⟨users, [], false⟩
    | some self =>
      match entry.alloc.run users self entry.malloc with
      | (users, none) => ⟨users, [], false⟩
      | (users, some filter) =>
        let rest := evfLoadFilters users entries
        { rest with filters := (self, filter) :: rest.filters }

/-- `evf_load_profile` for files that match, without freeing. The filters of a file that fails come first, as they are
freed first. -/
def evfLoadProfile (users : Sys) (filters : FilterList) : List (List Entry) → Loaded
  | [] => ⟨users, filters, true⟩
  | file :: files =>
    let loaded := evfLoadFilters users file
    if loaded.ok then evfLoadProfile loaded.users (filters ++ loaded.filters) files
    else ⟨loaded.users, loaded.filters ++ filters, false⟩

/-! ## Freeing -/

/-- What `filter->free` calls. -/
def freeOp : FilterPtr × AnyFilter → Option Op
  | (_, .copyToHandle priv) => some (.destroy priv.handle)
  | (_, .filterToHandle priv) => some (.destroy priv.handle)
  | (self, .getFromHandle) => some (.detach self)
  | _ => none

abbrev freeOps (filters : FilterList) : List Op := filters.filterMap freeOp

/-- `evf_filters_free`. There is no result if a freed handle is used. -/
def evfFiltersFree (users : Sys) (filters : FilterList) : Option Sys := Handle.machine.run users (freeOps filters)

/-! ## The program -/

/-- `cells` is the memory, and what has been given to the sinks. -/
structure World where
  users : Sys
  cells : Ref → Option Cell
  /-- The filters of each line, in their order. -/
  lines : List (List FilterPtr)

inductive Action
  /-- The files of the profile, and what `malloc` returns for the commit filter. -/
  | create (files : List (List Entry)) (commit : Option FilterPtr) (data : Nat)
  /-- An event for one of the lines, processed to its end. -/
  | event (line : Nat) (ev : InputEvent) (fuel : Nat)
  | destroy (line : Nat)

/-- The filters of a line, with its commit filter. -/
def withCommit (filters : FilterList) (commit : FilterPtr) (data : Nat) : FilterList :=
  filters ++ [(commit, .commit data)]

/-- The filters are linked by `next`, in this order. -/
def link (cells : Ref → Option Cell) : FilterList → Ref → Option Cell
  | [] => cells
  | (self, filter) :: filters =>
    Function.update (link cells filters) (.filter (some self)) (some (.filter filter (filters.head?.map Prod.fst)))

def release (cells : Ref → Option Cell) (line : List FilterPtr) : Ref → Option Cell
  | .filter (some self) => if self ∈ line then none else cells (.filter (some self))
  | i => cells i

/-- What is in memory for these addresses. -/
def stored (cells : Ref → Option Cell) (line : List FilterPtr) : FilterList :=
  line.filterMap fun self => match cells (.filter (some self)) with
    | some (.filter filter _) => some (self, filter)
    | _ => none

/-- The addresses that `malloc` returns while a line is made. -/
def returned (files : List (List Entry)) (commit : Option FilterPtr) : List FilterPtr :=
  files.flatten.filterMap Entry.self ++ commit.toList

namespace World

variable (w : World)

/-- `evf_line_process_event` -/
def process (line : List FilterPtr) (ev : InputEvent) : Comp Ref (InputEvent × (Ref → Option Cell)) :=
  (filters w.users.reg).send (.filter line.head?, ev) w.cells

/-- What `malloc` returns is not in use. The refcount of a handle can count all its senders, should each filter of the
files be one. -/
def Fresh (files : List (List Entry)) (commit : Option FilterPtr) : Prop :=
  ((returned files commit).Nodup ∧ ∀ self ∈ returned files commit, self ∉ w.lines.flatten) ∧
    w.users.senders.length + files.flatten.length < Handle.intMax

instance (files : List (List Entry)) (commit : Option FilterPtr) : Decidable (w.Fresh files commit) :=
  inferInstanceAs (Decidable (_ ∧ _))

/-- `evf_line_create` with its filters loaded, `evf_line_process` and `evf_line_destroy`. An empty line is not made. -/
def step : Action → Option World
  | .create files commit data =>
    if w.Fresh files commit then
      let loaded := evfLoadProfile w.users [] files
      if loaded.ok && loaded.filters.isEmpty then some { w with users := loaded.users }
      else
        match loaded.ok, commit with
        | true, some commit =>
          let filters := withCommit loaded.filters commit data
          some ⟨loaded.users, link w.cells filters, w.lines ++ [filters.map Prod.fst]⟩
        | _, _ => (evfFiltersFree loaded.users loaded.filters).map fun users => { w with users := users }
    else none
  | .event line ev fuel =>
    match w.lines[line]? with
    | none => none
    | some line =>
      match (w.process line ev).run fuel with
      | some (.ok (_, cells)) => some { w with cells := cells }
      | _ => none
  | .destroy line =>
    match w.lines[line]? with
    | none => none
    | some filters => (evfFiltersFree w.users (stored w.cells filters)).map fun users =>
        ⟨users, release w.cells filters, w.lines.eraseIdx line⟩

/-- What is freed. -/
def freed : Action → Sys × FilterList
  | .create files commit _ =>
    let loaded := evfLoadProfile w.users [] files
    (loaded.users, if loaded.ok && commit.isSome then [] else loaded.filters)
  | .event _ _ _ => (w.users, [])
  | .destroy line => (w.users, stored w.cells (w.lines[line]?.getD []))

/-- Each GetFromHandle that is freed is taken from its handle. -/
def FreesFind (action : Action) : Prop :=
  Handle.machine.Along DetachFinds (w.freed action).1 (freeOps (w.freed action).2)

end World

/-- The filters of a profile do not divide where the processor stops the program. -/
def Action.DivisorsOk : Action → Prop
  | .create files _ _ => ∀ entry ∈ files.flatten, entry.alloc.DivisorsOk
  | .event _ _ _ | .destroy _ => True

instance : DecidablePred Action.DivisorsOk
  | .create files _ _ => inferInstanceAs (Decidable (∀ entry ∈ files.flatten, entry.alloc.DivisorsOk))
  | .event _ _ _ | .destroy _ => isTrue trivial

def machine : Machine World Action where
  init := ⟨Handle.machine.init, fun | .sink _ => some (.sink []) | .filter _ | .sigfpe => none, []⟩
  step := World.step

variable {users users' : Sys} {op : Op} {ops ops' : List Op} {self : FilterPtr} {name : CString} {malloc : Bool}
  {cells cells' : Ref → Option Cell} {line : List FilterPtr} {fs : FilterList} {w w' : World}

/-! ## What is to be freed -/

def destroyed : Op → Option Addr
  | .destroy handle => some handle
  | _ => none

def detached : Op → Option FilterPtr
  | .detach filter => some filter
  | _ => none

/-- The calls that are still to be made for the senders and the receivers. -/
structure Owed (users : Sys) (ops : List Op) : Prop where
  only : ∀ op ∈ ops, (∃ handle, op = .destroy handle) ∨ ∃ filter, op = .detach filter
  senders : (ops.filterMap destroyed).Perm users.senders
  attached : (ops.filterMap detached).Perm users.attached

theorem Owed.perm (h : Owed users ops) (hp : ops.Perm ops') : Owed users ops' where
  only op hop := h.only op (hp.mem_iff.mpr hop)
  senders := (hp.filterMap destroyed).symm.trans h.senders
  attached := (hp.filterMap detached).symm.trans h.attached

theorem Owed.mem_attached (h : Owed users ops) : self ∈ users.attached ↔ .detach self ∈ ops := by
  rw [← h.attached.mem_iff, List.mem_filterMap]
  constructor
  · rintro ⟨op, hop, hself⟩
    cases op with
    | detach filter =>
        cases hself
        exact hop
    | _ => cases hself
  · exact fun hop => ⟨_, hop, rfl⟩

theorem Owed.mem_senders (h : Owed users ops) {handle : Addr} (hop : .destroy handle ∈ ops) : handle ∈ users.senders :=
  h.senders.mem_iff.mp (List.mem_filterMap.mpr ⟨_, hop, rfl⟩)

/-- A call that is to be made can be made, in any state of the registry. -/
theorem Owed.step (h : Owed users (op :: ops)) (hw : users.Wf) :
    ∃ users', Handle.step users op = some users' ∧ users'.Wf ∧ Owed users' ops := by
  have honly : ∀ op ∈ ops, _ := fun op hop => h.only op (List.mem_cons_of_mem _ hop)
  rcases h.only op List.mem_cons_self with ⟨handle, rfl⟩ | ⟨filter, rfl⟩
  · obtain ⟨hmem, hsenders⟩ := List.cons_perm_iff_perm_erase.mp h.senders
    obtain ⟨v, hv⟩ := hw.held handle hmem
    obtain ⟨reg, hreg, -⟩ := destroy_cases hw.ok hv
    have hstep : Handle.step users (.destroy handle) =
        some { users with reg := reg, senders := users.senders.erase handle } := by
      simp [Handle.step, hmem, hreg]
    exact ⟨_, hstep, hw.destroy hstep, honly, hsenders, h.attached⟩
  · have hmem : filter ∈ users.attached := h.mem_attached.mpr List.mem_cons_self
    obtain ⟨r, hr, hfilter⟩ := List.mem_map.mp hmem
    obtain ⟨q, hq⟩ := Option.isSome_iff_exists.mp
      (List.find?_isSome.mpr ⟨r, hr, by simpa using hfilter⟩ : (users.receivers.find? (·.filter == filter)).isSome)
    have hstep : Handle.step users (.detach filter) = some { users with
        reg := evfHandleDetach users.reg q.name, receivers := users.receivers.erase q } := by
      simp [Handle.step, hq]
    have hown : q.filter = filter := by simpa using List.find?_some hq
    have hrest := (List.perm_cons_erase (List.mem_of_find?_eq_some hq)).map (·.filter)
    rw [List.map_cons, hown] at hrest
    exact ⟨_, hstep, hw.detach hstep, honly, h.senders, (h.attached.trans hrest).cons_inv⟩

theorem Owed.run (h : Owed users (ops ++ ops')) (hw : users.Wf) :
    ∃ users', Handle.machine.run users ops = some users' ∧ users'.Wf ∧ Owed users' ops' := by
  induction ops generalizing users with
  | nil => exact ⟨users, rfl, hw, h⟩
  | cons op ops ih =>
      obtain ⟨next, hnext, hw', h'⟩ := h.step hw
      obtain ⟨users', hrun, hend⟩ := ih h' hw'
      refine ⟨users', ?_, hend⟩
      rw [Machine.run_cons]
      change (Handle.step users op).bind _ = _
      rw [hnext]
      exact hrun

/-! ## Loading -/

/-- Filters have been loaded: `new` is to be freed as well. -/
structure Gains (users users' : Sys) (new : List Op) : Prop where
  wf : users.Wf → users'.Wf
  sound : Sound users → Sound users'
  owed : ∀ ops, Owed users ops → Owed users' (new ++ ops)
  attached : ∀ filter ∈ users'.attached, filter ∈ users.attached ∨ .detach filter ∈ new

theorem Gains.refl : Gains users users [] := ⟨id, id, fun _ => id, fun _ => Or.inl⟩

theorem Gains.trans {between : Sys} {new new' : List Op} (h : Gains users between new)
    (h' : Gains between users' new') : Gains users users' (new ++ new') where
  wf := h'.wf ∘ h.wf
  sound := h'.sound ∘ h.sound
  owed ops ho := by
    have hall := h'.owed _ (h.owed ops ho)
    rw [← List.append_assoc] at hall
    exact hall.perm (List.perm_append_comm.append_right ops)
  attached filter hf := by
    rcases h'.attached filter hf with hf | hf
    · exact (h.attached filter hf).imp_right (List.mem_append_left _)
    · exact Or.inr (List.mem_append_right _ hf)

/-- A refcount is at most one more than there are senders. -/
theorem canCount (hw : users.Wf) (hroom : users.senders.length + 1 < Handle.intMax) (name : CString) :
    users.reg.CanCount name := by
  intro handle _ v hv
  have hcounted := (hw.counted handle v hv).2
  have hlen : users.senders.count handle ≤ users.senders.length := List.count_le_length
  omega

theorem senderHandle_gains (hroom : users.senders.length + 1 < Handle.intMax) (name : CString) (malloc : Bool) :
    Gains users (senderHandle users name malloc).1 ((senderHandle users name malloc).2.toList.map .destroy) := by
  have hstep (hw : users.Wf) :
      Handle.step users (.create name malloc) = some (senderHandle users name malloc).1 := by
    simp only [Handle.step, senderHandle, if_pos (canCount hw hroom name)]
    rcases evfHandleCreate users.reg name malloc with ⟨reg, _ | handle⟩ <;> rfl
  refine ⟨fun hw => hw.create (hstep hw), fun hs => hs.create (hstep hs.wf), fun ops ho => ?_,
    fun filter hf => Or.inl ?_⟩
  · unfold senderHandle
    split
    · exact ⟨ho.only, ho.senders, ho.attached⟩
    · exact ⟨List.forall_mem_cons.mpr ⟨Or.inl ⟨_, rfl⟩, ho.only⟩, ho.senders.cons _, ho.attached⟩
  · unfold senderHandle at hf
    split at hf <;> exact hf

theorem receive_gains (h : self ∉ users.attached) (name : CString) (malloc : Bool) :
    Gains users (receive users name self malloc).1
      (if (receive users name self malloc).2 then [.detach self] else []) := by
  have hstep : Handle.step users (.attach name self getFromHandleSend malloc) =
      some (receive users name self malloc).1 := by
    simp only [Handle.step, receive, if_neg h]
    rcases evfHandleAttach users.reg name self getFromHandleSend malloc with ⟨reg, _ | code, filter⟩ <;> rfl
  refine ⟨fun hw => hw.attach hstep, fun hs => hs.attach hstep, fun ops ho => ?_, fun filter hf => ?_⟩
  · unfold receive
    split
    · exact ⟨List.forall_mem_cons.mpr ⟨Or.inr ⟨_, rfl⟩, ho.only⟩, ho.senders, ho.attached.cons _⟩
    · exact ⟨ho.only, ho.senders, ho.attached⟩
  · unfold receive at hf ⊢
    split at hf
    · rcases List.mem_cons.mp hf with rfl | hf
      · exact Or.inr List.mem_cons_self
      · exact Or.inl hf
    · exact Or.inl hf

theorem alloc_gains (h : self ∉ users.attached) (hroom : users.senders.length + 1 < Handle.intMax) (alloc : Alloc)
    (malloc : Bool) :
    Gains users (alloc.run users self malloc).1
      (freeOps ((alloc.run users self malloc).2.toList.map fun filter => (self, filter))) := by
  cases alloc with
  | inner params => exact .refl
  | dump file => exact .refl
  | copyToHandle name =>
      have hgains := senderHandle_gains hroom name malloc
      simp only [Alloc.run]
      cases hhandle : (senderHandle users name malloc).2 <;> rw [hhandle] at hgains <;> exact hgains
  | filterToHandle name type code evFlag =>
      have hgains := senderHandle_gains hroom name malloc
      simp only [Alloc.run]
      cases hhandle : (senderHandle users name malloc).2 <;> rw [hhandle] at hgains <;> exact hgains
  | getFromHandle name =>
      have hgains := receive_gains h name malloc
      simp only [Alloc.run]
      cases hattached : (receive users name self malloc).2 <;> rw [hattached] at hgains <;> exact hgains

theorem senderHandle_senders (users : Sys) (name : CString) (malloc : Bool) :
    (senderHandle users name malloc).1.senders.length ≤ users.senders.length + 1 := by
  unfold senderHandle
  split
  · exact Nat.le_succ _
  · exact Nat.le_refl _

/-- A filter is a sender of one handle at most. -/
theorem alloc_senders (users : Sys) (self : FilterPtr) (malloc : Bool) (alloc : Alloc) :
    (alloc.run users self malloc).1.senders.length ≤ users.senders.length + 1 := by
  cases alloc with
  | inner params => exact Nat.le_succ _
  | dump file => exact Nat.le_succ _
  | copyToHandle name => exact senderHandle_senders users name malloc
  | filterToHandle name type code evFlag => exact senderHandle_senders users name malloc
  | getFromHandle name =>
      simp only [Alloc.run, receive]
      split <;> exact Nat.le_succ _

theorem freeOps_append (fs gs : FilterList) : freeOps (fs ++ gs) = freeOps fs ++ freeOps gs := List.filterMap_append

theorem freeOps_cons (x : FilterPtr × AnyFilter) (fs : FilterList) : freeOps (x :: fs) = freeOps [x] ++ freeOps fs :=
  freeOps_append [x] fs

theorem freeOps_withCommit (fs : FilterList) (commit : FilterPtr) (data : Nat) :
    freeOps (withCommit fs commit data) = freeOps fs := by
  rw [withCommit, freeOps_append]
  exact List.append_nil _

theorem detach_mem_freeOps (h : .detach self ∈ freeOps fs) : self ∈ fs.map Prod.fst := by
  obtain ⟨⟨p, filter⟩, hx, hop⟩ := List.mem_filterMap.mp h
  cases filter <;> cases hop
  exact List.mem_map_of_mem hx

theorem loadFilters_senders (users : Sys) (entries : List Entry) :
    (evfLoadFilters users entries).users.senders.length ≤ users.senders.length + entries.length := by
  induction entries generalizing users with
  | nil => exact Nat.le_refl _
  | cons entry entries ih =>
      rw [evfLoadFilters, List.length_cons]
      cases entry.self with
      | none => exact Nat.le_add_right _ _
      | some self =>
          have halloc := alloc_senders users self entry.malloc entry.alloc
          rcases hrun : entry.alloc.run users self entry.malloc with ⟨between, _ | filter⟩
          · simp only [hrun] at halloc ⊢
            omega
          · have hrest := ih between
            simp only [hrun] at halloc ⊢
            omega

theorem loadFilters_gains (entries : List Entry) (hnodup : (entries.filterMap Entry.self).Nodup)
    (hnew : ∀ self ∈ entries.filterMap Entry.self, self ∉ users.attached)
    (hroom : users.senders.length + entries.length < Handle.intMax) :
    Gains users (evfLoadFilters users entries).users (freeOps (evfLoadFilters users entries).filters) ∧
      ((evfLoadFilters users entries).filters.map Prod.fst).Sublist (entries.filterMap Entry.self) := by
  induction entries generalizing users with
  | nil => exact ⟨.refl, .slnil⟩
  | cons entry entries ih =>
      rw [evfLoadFilters]
      cases hself : entry.self with
      | none => exact ⟨.refl, List.nil_sublist _⟩
      | some self =>
          rw [List.filterMap_cons_some hself] at hnodup hnew ⊢
          obtain ⟨hself', hnodup⟩ := List.nodup_cons.mp hnodup
          obtain ⟨hfree, hnew⟩ := List.forall_mem_cons.mp hnew
          rw [List.length_cons] at hroom
          have halloc := alloc_gains hfree (by omega) entry.alloc entry.malloc
          have hgrown := alloc_senders users self entry.malloc entry.alloc
          rcases hrun : entry.alloc.run users self entry.malloc with ⟨between, _ | filter⟩
          · rw [hrun] at halloc
            simp only [hrun]
            exact ⟨halloc, List.nil_sublist _⟩
          · rw [hrun] at halloc
            simp only [hrun] at hgrown ⊢
            have hnew' : ∀ p ∈ entries.filterMap Entry.self, p ∉ between.attached := fun p hp hatt => by
              rcases halloc.attached p hatt with hold | hnow
              · exact hnew p hp hold
              · have heq : p = self := by simpa using detach_mem_freeOps hnow
                exact hself' (heq ▸ hp)
            obtain ⟨hrest, hsub⟩ := ih hnodup hnew' (by omega)
            refine ⟨?_, hsub.cons_cons self⟩
            rw [freeOps_cons]
            exact halloc.trans hrest

/-- Filters have been loaded, some of them, `before`, by earlier files. -/
structure Loads (users : Sys) (before : FilterList) (loaded : Loaded) : Prop where
  wf : users.Wf → loaded.users.Wf
  sound : Sound users → Sound loaded.users
  owed : ∀ ops, Owed users (freeOps before ++ ops) → Owed loaded.users (freeOps loaded.filters ++ ops)

theorem loadProfile_loads (files : List (List Entry))
    (hnodup : (fs.map Prod.fst ++ files.flatten.filterMap Entry.self).Nodup)
    (hnew : ∀ self ∈ files.flatten.filterMap Entry.self, self ∉ users.attached)
    (hroom : users.senders.length + files.flatten.length < Handle.intMax) :
    Loads users fs (evfLoadProfile users fs files) ∧
      ((evfLoadProfile users fs files).ok → ((evfLoadProfile users fs files).filters.map Prod.fst).Sublist
        (fs.map Prod.fst ++ files.flatten.filterMap Entry.self)) := by
  induction files generalizing users fs with
  | nil => exact ⟨⟨id, id, fun _ => id⟩, fun _ => by simp [evfLoadProfile]⟩
  | cons file files ih =>
      rw [List.flatten_cons, List.filterMap_append] at hnodup hnew ⊢
      rw [← List.append_assoc] at hnodup ⊢
      rw [List.flatten_cons, List.length_append] at hroom
      obtain ⟨hgains, hsub⟩ := loadFilters_gains file ((List.nodup_append.mp (List.nodup_append.mp hnodup).1).2.1)
        (fun self h => hnew self (List.mem_append_left _ h)) (by omega)
      have hall : ∀ ops, Owed users (freeOps fs ++ ops) → Owed (evfLoadFilters users file).users
          (freeOps (evfLoadFilters users file).filters ++ freeOps fs ++ ops) := fun ops ho => by
        rw [List.append_assoc]
        exact hgains.owed _ ho
      rw [evfLoadProfile]
      split
      case isFalse hfail =>
        refine ⟨⟨hgains.wf, hgains.sound, fun ops ho => ?_⟩, fun h => absurd h (by simp)⟩
        simp only
        rw [freeOps_append]
        exact hall ops ho
      case isTrue =>
        have hsub' := ((List.Sublist.refl (fs.map Prod.fst)).append hsub).append
          (List.Sublist.refl (files.flatten.filterMap Entry.self))
        rw [← List.map_append] at hsub'
        have hnew' : ∀ self ∈ files.flatten.filterMap Entry.self,
            self ∉ (evfLoadFilters users file).users.attached := fun self h hatt => by
          rcases hgains.attached self hatt with hold | hnow
          · exact hnew self (List.mem_append_right _ h) hold
          · have hloaded : self ∈ file.filterMap Entry.self := hsub.subset (detach_mem_freeOps hnow)
            exact (List.nodup_append.mp hnodup).2.2 self (List.mem_append_right _ hloaded) self h rfl
        have hgrown := loadFilters_senders users file
        obtain ⟨hloads, hlist⟩ := ih (hnodup.sublist hsub') hnew' (by omega)
        refine ⟨⟨hloads.wf ∘ hgains.wf, hloads.sound ∘ hgains.sound, fun ops ho => hloads.owed ops ?_⟩,
          fun hok => (hlist hok).trans hsub'⟩
        rw [freeOps_append]
        exact (hall ops ho).perm (List.perm_append_comm.append_right ops)

/-! ## Memory -/

theorem stored_append (line line' : List FilterPtr) :
    stored cells (line ++ line') = stored cells line ++ stored cells line' := List.filterMap_append

theorem stored_congr (h : ∀ self ∈ line, cells' (.filter (some self)) = cells (.filter (some self))) :
    stored cells' line = stored cells line := by
  refine List.filterMap_congr fun self hself => ?_
  rw [h self hself]

/-- The filters are linked in this order, with a commit filter at the end. -/
def Strung (cells : Ref → Option Cell) : List FilterPtr → Prop
  | [] => True
  | self :: line => (∃ filter, cells (.filter (some self)) = some (.filter filter line.head?) ∧
      (line = [] → ∃ data, filter = .commit data)) ∧ Strung cells line

theorem Strung.congr (h : Strung cells line)
    (hsame : ∀ self ∈ line, cells' (.filter (some self)) = cells (.filter (some self))) : Strung cells' line := by
  induction line with
  | nil => trivial
  | cons self line ih =>
      refine ⟨?_, ih h.2 fun p hp => hsame p (List.mem_cons_of_mem _ hp)⟩
      rw [hsame self List.mem_cons_self]
      exact h.1

theorem Strung.at (h : Strung cells line) (hself : self ∈ line) : ∃ filter next,
    cells (.filter (some self)) = some (.filter filter next) ∧ (∀ p ∈ next, p ∈ line) ∧
      (next = none → ∃ data, filter = .commit data) := by
  induction line with
  | nil => cases hself
  | cons p line ih =>
      rcases List.mem_cons.mp hself with rfl | hself
      · obtain ⟨⟨filter, hcell, hlast⟩, -⟩ := h
        refine ⟨filter, line.head?, hcell, fun p hp => ?_, fun hnone => hlast (List.head?_eq_none_iff.mp hnone)⟩
        exact List.mem_cons_of_mem _ (List.mem_of_mem_head? hp)
      · obtain ⟨filter, next, hcell, hnext, hlast⟩ := ih h.2 hself
        exact ⟨filter, next, hcell, fun p hp => List.mem_cons_of_mem _ (hnext p hp), hlast⟩

theorem link_other {i : Ref} (h : ∀ self ∈ fs.map Prod.fst, i ≠ .filter (some self)) : link cells fs i = cells i := by
  induction fs with
  | nil => rfl
  | cons x fs ih =>
      obtain ⟨hself, hrest⟩ := List.forall_mem_cons.mp h
      rw [link, Function.update_of_ne hself, ih hrest]

theorem link_tail {x : FilterPtr × AnyFilter} (hnodup : ((x :: fs).map Prod.fst).Nodup) :
    ∀ self ∈ fs.map Prod.fst, link cells (x :: fs) (.filter (some self)) = link cells fs (.filter (some self)) := by
  intro self hself
  have hne : self ≠ x.1 := fun heq => (List.nodup_cons.mp hnodup).1 (heq ▸ hself)
  rw [link, Function.update_of_ne (by simpa using hne)]

theorem stored_link (hnodup : (fs.map Prod.fst).Nodup) : stored (link cells fs) (fs.map Prod.fst) = fs := by
  induction fs with
  | nil => rfl
  | cons x fs ih =>
      have hrest : stored (link cells (x :: fs)) (fs.map Prod.fst) = fs :=
        (stored_congr (link_tail hnodup)).trans (ih (List.nodup_cons.mp hnodup).2)
      have hself : link cells (x :: fs) (.filter (some x.1)) = some (.filter x.2 (fs.head?.map Prod.fst)) :=
        Function.update_self ..
      rw [stored, List.map_cons, List.filterMap_cons, hself]
      exact congrArg (x :: ·) hrest

theorem strung_link {commit : FilterPtr} {data : Nat} (hnodup : ((withCommit fs commit data).map Prod.fst).Nodup) :
    Strung (link cells (withCommit fs commit data)) ((withCommit fs commit data).map Prod.fst) := by
  induction fs with
  | nil => exact ⟨⟨_, Function.update_self .., fun _ => ⟨data, rfl⟩⟩, trivial⟩
  | cons x fs ih =>
      refine ⟨⟨x.2, ?_, fun hnil => absurd hnil (by simp)⟩, ?_⟩
      · change link cells (x :: withCommit fs commit data) _ = some (.filter x.2 (List.head? (List.map _ _)))
        rw [link, Function.update_self, List.head?_map]
        rfl
      · exact (ih (List.nodup_cons.mp hnodup).2).congr (link_tail hnodup)

/-! ## What events leave as it is -/

/-- A filter without the data that its `modify` may change. -/
def bare : AnyFilter → AnyFilter
  | .inner _ => .inner .noRepeat
  | .filterToHandle priv => .filterToHandle (evfFilterToHandleAlloc priv.handle 0 0 false)
  | filter => filter

def bareCell : Cell → Cell
  | .filter filter next => .filter (bare filter) next
  | .sink _ => .sink []

/-- The memory is as it was, but for these data. -/
def SameBare (cells cells' : Ref → Option Cell) : Prop := ∀ i, (cells' i).map bareCell = (cells i).map bareCell

theorem modify_bare (r : Registry) (next : Option FilterPtr) (filter : AnyFilter) (ev : InputEvent) :
    (filter.modify r next ev).Obeys (fun _ => True) fun x => bare x.1 = bare filter := by
  cases filter with
  | filterToHandle priv =>
      refine Proc.Obeys.bind ((filterToHandle_obeys priv ev).answered.through fun _ _ => Proc.obeys_calls _) ?_
      exact fun x hx => congrArg (fun handle => AnyFilter.filterToHandle (evfFilterToHandleAlloc handle 0 0 false)) hx
  | inner f =>
      rw [AnyFilter.modify]
      split <;> exact (Proc.obeys_calls _).bind fun _ _ => rfl
  | _ => exact (Proc.obeys_calls _).bind fun _ _ => rfl

theorem call_bare (r : Registry) (cell : Cell) (ev : InputEvent) :
    (cell.call r ev).Obeys (fun _ => True) fun x => bareCell x.1 = bareCell cell := by
  cases cell with
  | filter filter next =>
      exact (modify_bare r next filter ev).bind fun x hx => congrArg (fun filter => Cell.filter filter next) hx
  | sink events => rfl

theorem process_bare {ev r : InputEvent} (h : (w.process line ev).Yields (.ok (r, cells'))) :
    SameBare w.cells cells' := by
  obtain ⟨n, hn⟩ := h
  exact Objects.run_keeps (O := filters w.users.reg) (call_bare w.users.reg) hn

theorem SameBare.filter (h : SameBare cells cells') {next : Option FilterPtr} {filter : AnyFilter}
    (hcell : cells (.filter (some self)) = some (.filter filter next)) :
    ∃ filter', cells' (.filter (some self)) = some (.filter filter' next) ∧ bare filter' = bare filter := by
  have hself := h (.filter (some self))
  rw [hcell, Option.map_some] at hself
  obtain ⟨cell, hcell', heq⟩ := Option.map_eq_some_iff.mp hself
  cases cell with
  | filter filter' next' =>
      obtain ⟨hfilter, rfl⟩ := Cell.filter.inj heq
      exact ⟨filter', hcell', hfilter⟩
  | sink events => cases heq

theorem freeOp_bare (self : FilterPtr) (filter : AnyFilter) : freeOp (self, bare filter) = freeOp (self, filter) := by
  cases filter <;> rfl

theorem bare_commit {filter filter' : AnyFilter} {data : Nat} (h : bare filter' = bare filter)
    (hcommit : filter = .commit data) : filter' = .commit data := by
  subst hcommit
  cases filter' <;> cases h
  rfl

theorem Strung.bare (h : Strung cells line) (hsame : SameBare cells cells') : Strung cells' line := by
  induction line with
  | nil => trivial
  | cons self line ih =>
      obtain ⟨⟨filter, hcell, hlast⟩, hrest⟩ := h
      obtain ⟨filter', hcell', hbare⟩ := hsame.filter hcell
      exact ⟨⟨filter', hcell', fun hnil => (hlast hnil).imp fun _ => bare_commit hbare⟩, ih hrest⟩

/-- What is to be freed for these addresses. -/
theorem freeOps_stored_bare (hsame : SameBare cells cells') :
    freeOps (stored cells' line) = freeOps (stored cells line) := by
  rw [freeOps, freeOps, stored, stored, List.filterMap_filterMap, List.filterMap_filterMap]
  refine List.filterMap_congr fun self _ => ?_
  cases hcell : cells (.filter (some self)) with
  | none => rw [Option.map_eq_none_iff.mp ((hsame _).trans (congrArg _ hcell))]
  | some cell =>
      cases cell with
      | filter filter next =>
          obtain ⟨filter', hcell', hbare⟩ := hsame.filter hcell
          simp only [hcell', Option.bind_some]
          rw [← freeOp_bare, hbare, freeOp_bare]
      | sink events =>
          have hself := hsame (.filter (some self))
          rw [hcell] at hself
          obtain ⟨cell', hcell', heq⟩ := Option.map_eq_some_iff.mp hself
          cases cell' with
          | filter filter' next => cases heq
          | sink events' => rw [hcell']

/-! ## The invariant -/

structure Alive (w : World) : Prop where
  wf : w.users.Wf
  owed : Owed w.users (freeOps (stored w.cells w.lines.flatten))
  strung : ∀ line ∈ w.lines, line ≠ [] ∧ Strung w.cells line
  distinct : w.lines.flatten.Nodup
  sinks : ∀ data, ∃ events, w.cells (.sink data) = some (.sink events)

theorem alive_init : Alive machine.init where
  wf := wf_init
  owed := ⟨by simp [machine, stored], .nil, .nil⟩
  strung := by simp [machine]
  distinct := .nil
  sinks _ := ⟨[], rfl⟩

theorem Alive.bare (h : Alive w) (hsame : SameBare w.cells cells') : Alive { w with cells := cells' } where
  wf := h.wf
  owed := by
    rw [freeOps_stored_bare hsame]
    exact h.owed
  strung line hline := ⟨(h.strung line hline).1, (h.strung line hline).2.bare hsame⟩
  distinct := h.distinct
  sinks data := by
    obtain ⟨events, hcell⟩ := h.sinks data
    have hself := hsame (.sink data)
    rw [hcell] at hself
    obtain ⟨cell, hcell', heq⟩ := Option.map_eq_some_iff.mp hself
    cases cell with
    | filter filter next => cases heq
    | sink events => exact ⟨events, hcell'⟩

/-- Receivers are filters of the lines. -/
theorem Alive.attached (h : Alive w) (hself : self ∈ w.users.attached) : self ∈ w.lines.flatten := by
  have hfree := detach_mem_freeOps (h.owed.mem_attached.mp hself)
  obtain ⟨x, hx, rfl⟩ := List.mem_map.mp hfree
  obtain ⟨p, hp, hcell⟩ := List.mem_filterMap.mp hx
  split at hcell
  · cases hcell
    exact hp
  · cases hcell

theorem Alive.fresh (h : Alive w) {files : List (List Entry)} {commit : Option FilterPtr}
    (hfresh : w.Fresh files commit) : Loads w.users [] (evfLoadProfile w.users [] files) ∧
      ((evfLoadProfile w.users [] files).ok → ((evfLoadProfile w.users [] files).filters.map Prod.fst).Sublist
        (files.flatten.filterMap Entry.self)) := by
  obtain ⟨⟨hnodup, hnew⟩, hroom⟩ := hfresh
  exact loadProfile_loads files (List.nodup_append.mp hnodup).1 (fun self hself hatt =>
    hnew self (List.mem_append_left _ hself) (h.attached hatt)) hroom

/-- A line that could not be made leaves the others as they were. -/
theorem Alive.failed (h : Alive w) {loaded : Loaded} (hloads : Loads w.users [] loaded) :
    ∃ users, evfFiltersFree loaded.users loaded.filters = some users ∧ Alive { w with users := users } := by
  obtain ⟨users, hrun, hwf, howed⟩ := (hloads.owed _ h.owed).run (hloads.wf h.wf)
  exact ⟨users, hrun, hwf, howed, h.strung, h.distinct, h.sinks⟩

theorem Alive.made (h : Alive w) {loaded : Loaded} (hloads : Loads w.users [] loaded) {commit : FilterPtr} {data : Nat}
    (hnodup : ((withCommit loaded.filters commit data).map Prod.fst).Nodup)
    (hnew : ∀ self ∈ (withCommit loaded.filters commit data).map Prod.fst, self ∉ w.lines.flatten) :
    Alive ⟨loaded.users, link w.cells (withCommit loaded.filters commit data),
      w.lines ++ [(withCommit loaded.filters commit data).map Prod.fst]⟩ := by
  have hold : ∀ self ∈ w.lines.flatten, link w.cells (withCommit loaded.filters commit data) (.filter (some self)) =
      w.cells (.filter (some self)) := fun self hself =>
    link_other fun p hp heq => hnew p hp (Option.some.inj (Ref.filter.inj heq) ▸ hself)
  refine ⟨hloads.wf h.wf, ?_, fun line hline => ?_, ?_, fun data => ?_⟩
  · rw [List.flatten_append, List.flatten_singleton, stored_append, stored_congr hold, stored_link hnodup,
      freeOps_append, freeOps_withCommit]
    exact (hloads.owed _ h.owed).perm List.perm_append_comm
  · rcases List.mem_append.mp hline with hline | hline
    · refine ⟨(h.strung line hline).1, (h.strung line hline).2.congr fun self hself => hold self ?_⟩
      exact List.mem_flatten.mpr ⟨line, hline, hself⟩
    · rw [List.mem_singleton.mp hline]
      exact ⟨by simp [withCommit], strung_link hnodup⟩
  · rw [List.flatten_append, List.flatten_singleton]
    exact List.nodup_append.mpr ⟨h.distinct, hnodup, fun p hp q hq heq => hnew q hq (heq ▸ hp)⟩
  · obtain ⟨events, hcell⟩ := h.sinks data
    exact ⟨events, (link_other fun _ _ => Ref.noConfusion).trans hcell⟩

theorem release_other {self : FilterPtr} (h : self ∉ line) :
    release cells line (.filter (some self)) = cells (.filter (some self)) := if_neg h

theorem Alive.destroyed (h : Alive w) {k : Nat} (hline : w.lines[k]? = some line) :
    ∃ users, evfFiltersFree w.users (stored w.cells line) = some users ∧
      Alive ⟨users, release w.cells line, w.lines.eraseIdx k⟩ := by
  obtain ⟨hk, hget⟩ := List.getElem?_eq_some_iff.mp hline
  have hperm : (line ++ (w.lines.eraseIdx k).flatten).Perm w.lines.flatten := by
    have hlines := (List.getElem_cons_eraseIdx_perm hk).flatten
    rw [hget] at hlines
    exact hlines
  have hdistinct := hperm.nodup_iff.mpr h.distinct
  have hkept : ∀ self ∈ (w.lines.eraseIdx k).flatten, release w.cells line (.filter (some self)) =
      w.cells (.filter (some self)) := fun self hself =>
    release_other fun hmem => (List.nodup_append.mp hdistinct).2.2 self hmem self hself rfl
  have howed : Owed w.users (freeOps (stored w.cells line) ++ freeOps (stored w.cells (w.lines.eraseIdx k).flatten)) := by
    rw [← freeOps_append, ← stored_append]
    exact h.owed.perm ((hperm.symm.filterMap _).filterMap _)
  obtain ⟨users, hrun, hwf, hrest⟩ := howed.run h.wf
  refine ⟨users, hrun, hwf, ?_, fun line' hline' => ?_, (List.nodup_append.mp hdistinct).2.1, h.sinks⟩
  · rw [stored_congr hkept]
    exact hrest
  · obtain ⟨hne, hstrung⟩ := h.strung line' (List.mem_of_mem_eraseIdx hline')
    exact ⟨hne, hstrung.congr fun self hself => hkept self (List.mem_flatten.mpr ⟨line', hline', hself⟩)⟩

/-! ## Steps -/

/-- Where a step leads. -/
structure World.LeadsTo (w : World) (action : Action) (w' : World) : Prop where
  step : w.step action = some w'
  alive : Alive w'
  sound : Sound w.users → w.FreesFind action → Sound w'.users

/-- What is freed along the way. -/
theorem sound_of_freed {loaded : Sys} (h : Sound loaded) (hfind : Handle.machine.Along DetachFinds loaded (freeOps fs))
    (hfree : evfFiltersFree loaded fs = some users) : Sound users :=
  (hfind.throughout h fun hj hc hs => hj.step hc hs).last hfree

section Create

variable {files : List (List Entry)} {commit : Option FilterPtr}

theorem Alive.create_empty (h : Alive w) (data : Nat) (hfresh : w.Fresh files commit)
    (hempty : (evfLoadProfile w.users [] files).ok && (evfLoadProfile w.users [] files).filters.isEmpty) :
    ∃ w', w.LeadsTo (.create files commit data) w' := by
  obtain ⟨hloads, -⟩ := h.fresh hfresh
  obtain ⟨users, hfree, halive⟩ := h.failed hloads
  rw [List.isEmpty_iff.mp (Bool.and_eq_true_iff.mp hempty).2] at hfree
  cases hfree
  exact ⟨_, by simp only [World.step, if_pos hfresh, if_pos hempty], halive, fun hsound _ => hloads.sound hsound⟩

theorem Alive.create_failed (h : Alive w) (data : Nat) (hfresh : w.Fresh files commit)
    (hfull : ¬ ((evfLoadProfile w.users [] files).ok && (evfLoadProfile w.users [] files).filters.isEmpty))
    (hno : ¬ ((evfLoadProfile w.users [] files).ok && commit.isSome)) :
    ∃ w', w.LeadsTo (.create files commit data) w' := by
  obtain ⟨hloads, -⟩ := h.fresh hfresh
  obtain ⟨users, hfree, halive⟩ := h.failed hloads
  refine ⟨_, ?_, halive, fun hsound hfind => ?_⟩
  · simp only [World.step, if_pos hfresh, if_neg hfull]
    split
    · rename_i hok
      exact absurd (by rw [hok]; rfl) hno
    · rw [hfree, Option.map_some]
  · simp only [World.FreesFind, World.freed, if_neg hno] at hfind
    exact sound_of_freed (hloads.sound hsound) hfind hfree

theorem Alive.create_made (h : Alive w) (data : Nat) {self : FilterPtr} (hfresh : w.Fresh files (some self))
    (hfull : ¬ ((evfLoadProfile w.users [] files).ok && (evfLoadProfile w.users [] files).filters.isEmpty))
    (hok : (evfLoadProfile w.users [] files).ok) : ∃ w', w.LeadsTo (.create files (some self) data) w' := by
  obtain ⟨hloads, hlist⟩ := h.fresh hfresh
  have hsub : ((withCommit (evfLoadProfile w.users [] files).filters self data).map Prod.fst).Sublist
      (returned files (some self)) := by
    rw [withCommit, List.map_append]
    exact (hlist hok).append (List.Sublist.refl _)
  have halive := h.made hloads (hfresh.1.1.sublist hsub) fun p hp => hfresh.1.2 p (hsub.subset hp)
  rw [hok] at hfull
  exact ⟨_, by simp only [World.step, if_pos hfresh, hok, if_neg hfull], halive, fun hsound _ => hloads.sound hsound⟩

/-- Whatever fails while a line is made, what has been loaded can be freed. -/
theorem Alive.create (h : Alive w) (data : Nat) (hfresh : w.Fresh files commit) :
    ∃ w', w.LeadsTo (.create files commit data) w' := by
  by_cases hempty : (evfLoadProfile w.users [] files).ok && (evfLoadProfile w.users [] files).filters.isEmpty
  · exact h.create_empty data hfresh hempty
  · by_cases hmade : (evfLoadProfile w.users [] files).ok && commit.isSome
    · obtain ⟨hok, hcommit⟩ := Bool.and_eq_true_iff.mp hmade
      obtain ⟨self, rfl⟩ := Option.isSome_iff_exists.mp hcommit
      exact h.create_made data hfresh hempty hok
    · exact h.create_failed data hfresh hempty hmade

end Create

theorem Alive.destroy (h : Alive w) {k : Nat} (hk : k < w.lines.length) : ∃ w', w.LeadsTo (.destroy k) w' := by
  have hline := List.getElem?_eq_getElem hk
  obtain ⟨users, hfree, halive⟩ := h.destroyed hline
  refine ⟨_, ?_, halive, fun hsound hfind => ?_⟩
  · simp only [World.step, hline, hfree, Option.map_some]
  · simp only [World.FreesFind, World.freed, hline, Option.getD_some] at hfind
    exact sound_of_freed hsound hfind hfree

theorem Alive.step {action : Action} (h : Alive w) (hs : w.step action = some w') : w.LeadsTo action w' := by
  have hunique : (∃ w', w.LeadsTo action w') → w.LeadsTo action w' := by
    rintro ⟨w₁, hw⟩
    cases hs.symm.trans hw.step
    exact hw
  cases action with
  | create files commit data =>
      by_cases hfresh : w.Fresh files commit
      · exact hunique (h.create data hfresh)
      · simp only [World.step, if_neg hfresh] at hs
        cases hs
  | event k ev fuel =>
      have hstep := hs
      simp only [World.step] at hs
      split at hs
      · cases hs
      · split at hs
        · rename_i hrun
          cases hs
          exact ⟨hstep, h.bare (process_bare ⟨fuel, hrun⟩), fun hsound _ => hsound⟩
        · cases hs
  | destroy k =>
      refine hunique (h.destroy (Nat.lt_of_not_le fun hle => ?_))
      simp only [World.step, List.getElem?_eq_none hle] at hs
      cases hs

/-! ## Events -/

def sinkOf : AnyFilter → Option Nat
  | .dump file => some file
  | .commit data => some data
  | _ => none

/-- The filters of all lines, and what their events are given to in the end. -/
def inUse (w : World) : List Ref :=
  w.lines.flatten.map (fun self => .filter (some self)) ++
    (stored w.cells w.lines.flatten).filterMap fun x => (sinkOf x.2).map .sink

/-- What a filter calls. -/
theorem targets_of {r : Registry} {next : Option FilterPtr} {filter : AnyFilter} {i : Ref} (hok : filter.DivisorsOk)
    (hi : i ∈ filter.targets r next) :
    (i = .filter next ∧ (next = none → ∀ data, filter ≠ .commit data)) ∨
      (∃ data, sinkOf filter = some data ∧ i = .sink data) ∨ ∃ handle ∈ filter.handle, i ∈ receivers r handle := by
  cases filter with
  | inner f =>
      rcases hi with rfl | ⟨hbad, -⟩
      · exact Or.inl ⟨rfl, fun _ _ => AnyFilter.noConfusion⟩
      · exact absurd hok hbad
  | getFromHandle => exact Or.inl ⟨hi, fun _ _ => AnyFilter.noConfusion⟩
  | copyToHandle priv =>
      rcases hi with rfl | hi
      · exact Or.inl ⟨rfl, fun _ _ => AnyFilter.noConfusion⟩
      · exact Or.inr (Or.inr ⟨priv.handle, rfl, hi⟩)
  | filterToHandle priv =>
      rcases hi with rfl | hi
      · exact Or.inl ⟨rfl, fun _ _ => AnyFilter.noConfusion⟩
      · exact Or.inr (Or.inr ⟨priv.handle, rfl, hi⟩)
  | dump file =>
      rcases hi with rfl | ⟨hne, rfl⟩
      · exact Or.inr (Or.inl ⟨file, rfl, rfl⟩)
      · exact Or.inl ⟨rfl, fun hnone => absurd hnone hne⟩
  | commit data =>
      rcases hi with rfl | ⟨hne, rfl⟩
      · exact Or.inr (Or.inl ⟨data, rfl, rfl⟩)
      · exact Or.inl ⟨rfl, fun hnone => absurd hnone hne⟩

theorem mem_inUse (hself : self ∈ w.lines.flatten) : Ref.filter (some self) ∈ inUse w :=
  List.mem_append_left _ (List.mem_map_of_mem hself)

theorem mem_stored {filter : AnyFilter} {next : Option FilterPtr} (hself : self ∈ w.lines.flatten)
    (hcell : w.cells (.filter (some self)) = some (.filter filter next)) :
    (self, filter) ∈ stored w.cells w.lines.flatten :=
  List.mem_filterMap.mpr ⟨self, hself, by rw [hcell]⟩

theorem freeOp_handle {filter : AnyFilter} {handle : Addr} (h : handle ∈ filter.handle) (self : FilterPtr) :
    freeOp (self, filter) = some (.destroy handle) := by
  cases filter with
  | copyToHandle priv =>
      cases h
      rfl
  | filterToHandle priv =>
      cases h
      rfl
  | _ => cases h

/-- A filter in memory holds the handle that it sends to. -/
theorem Alive.sender (h : Alive w) {filter : AnyFilter} {next : Option FilterPtr} {handle : Addr}
    (hself : self ∈ w.lines.flatten) (hcell : w.cells (.filter (some self)) = some (.filter filter next))
    (hhandle : handle ∈ filter.handle) : handle ∈ w.users.senders :=
  h.owed.mem_senders (List.mem_filterMap.mpr ⟨_, mem_stored hself hcell, freeOp_handle hhandle self⟩)

/-- With handles that lead to filters in memory, filters call nothing else. -/
theorem Alive.linked (h : Alive w) (hsound : Sound w.users) (hok : AllDivisorsOk w.cells) :
    Linked w.users.reg w.cells { i | i ∈ inUse w } where
  finite := List.finite_toSet _
  there := by
    intro i hi
    rcases List.mem_append.mp hi with hi | hi
    · obtain ⟨self, hself, rfl⟩ := List.mem_map.mp hi
      obtain ⟨line, hline, hmem⟩ := List.mem_flatten.mp hself
      obtain ⟨filter, next, hcell, hnext, hlast⟩ := (h.strung line hline).2.at hmem
      refine ⟨_, hcell, fun j hj => ?_⟩
      rcases targets_of (hok _ _ hcell) hj with ⟨rfl, hnone⟩ | ⟨data, hsink, rfl⟩ | ⟨handle, hhandle, send, p, hsend, rfl⟩
      · cases next with
        | none =>
            obtain ⟨data, hcommit⟩ := hlast rfl
            exact absurd hcommit (hnone rfl data)
        | some p => exact mem_inUse (List.mem_flatten.mpr ⟨line, hline, hnext p rfl⟩)
      · exact List.mem_append_right _ (List.mem_filterMap.mpr ⟨_, mem_stored hself hcell, by rw [hsink]; rfl⟩)
      · exact mem_inUse (h.attached (hsound.noDangling.sends handle (h.sender hself hcell hhandle) _ hsend))
    · obtain ⟨x, -, hx⟩ := List.mem_filterMap.mp hi
      obtain ⟨data, -, rfl⟩ := Option.map_eq_some_iff.mp hx
      obtain ⟨events, hcell⟩ := h.sinks data
      exact ⟨_, hcell, Set.empty_subset _⟩
  running := by simp [inUse]

/-- The filters that an event for a line gets to have handles that have not been freed. -/
def World.HandlesLive (w : World) (line : List FilterPtr) : Prop :=
  ∀ i self next, GetsTo w.users.reg w.cells (.filter line.head?) i → w.cells i = some (.filter self next) →
    ∀ handle ∈ self.handle, (w.users.reg.val? handle).isSome

/-- An event for a line is processed without a fault, and to its end if it gets to no loop. -/
def World.Processes (w : World) : Prop :=
  ∀ line ∈ w.lines, w.HandlesLive line ∧ ∀ ev, (w.process line ev).Safe ∧
    (NoLoop w.users.reg w.cells (.filter line.head?) → (w.process line ev).Terminates)

/-- Nothing that is owed to the registry is lost, and it can always be given back. -/
def World.GivesBack (w : World) : Prop :=
  Owed w.users (freeOps (stored w.cells w.lines.flatten)) ∧ (∀ k < w.lines.length, (w.step (.destroy k)).isSome) ∧
    ∀ files commit data, w.Fresh files commit → (w.step (.create files commit data)).isSome

/-- Whatever the lines are, whatever fails and in whichever order lines are made, used and freed: the handles that are
held, and the filters that are on one, are those of the filters in memory. Freeing them uses no freed handle. -/
theorem handles_given_back (actions : List Action) :
    machine.Throughout World.GivesBack machine.init actions := by
  have halive : machine.Throughout Alive machine.init actions :=
    Machine.along_true.throughout alive_init fun h _ hs => (h.step hs).alive
  refine halive.mono fun w h => ⟨h.owed, fun k hk => ?_, fun files commit data hfresh => ?_⟩
  · obtain ⟨w', hw'⟩ := h.destroy hk
    exact Option.isSome_of_eq_some hw'.step
  · obtain ⟨w', hw'⟩ := h.create data hfresh
    exact Option.isSome_of_eq_some hw'.step

instance (users : Sys) : DecidablePred (DetachFinds users)
  | .detach filter => inferInstanceAs (Decidable (∀ a ∈ users.visible, ∀ v ∈ users.reg.val? a, v.filter = some filter →
      ∀ r ∈ users.receivers, r.filter = filter →
        handleLookup users.reg r.name = some a ∧ (0 < v.refcount ∨ users.reg.handles ≠ some a)))
  | .create _ _ | .destroy _ | .attach _ _ _ _ => isTrue trivial

instance (w : World) : DecidablePred w.FreesFind := fun _ => Machine.decidableAlong ..

instance (actions : List Action) :
    Decidable (machine.Along (fun w action => w.FreesFind action ∧ action.DivisorsOk) machine.init actions) :=
  Machine.decidableAlong ..

/-- A GetFromHandle is freed that nothing sends to. It stays on its handle, where the next line finds it. -/
def leftBehind : List Action :=
  [.create [[⟨some 3, .getFromHandle nameA, true⟩]] (some 4) 8, .destroy 0,
    .create [[⟨some 1, .copyToHandle nameA, true⟩]] (some 2) 7]

example : ¬ machine.Along World.FreesFind machine.init leftBehind ∧ (machine.run machine.init leftBehind).any (fun w =>
    ((w.process [1, 2] stepRight).run 3).any fun o => match o with
      | .error fault => fault = .filter (some 3)
      | .ok _ => false) := by decide

end Evfilter.Filters.Lifetimes
