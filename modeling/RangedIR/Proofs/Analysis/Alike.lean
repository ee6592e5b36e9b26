/-
RangedIR.Proofs.Analysis.Alike — scopes and states that cannot be told apart.

A table keeps its entries in the order in which they were made, and an analysis never looks at
that order. Two scopes know the same if they have the same interval under every key, and so do
the scopes of their calls. States that are alike in this way stay alike: whatever an
instruction reads it reads in both, and whatever it writes it writes to both.
-/
import RangedIR.Proofs.Analysis.Runs

namespace RangedIR

open Table

/-! ## 1. Scopes -/

namespace Bounds

/-- What stays the same throughout an analysis: the elements of tables and the declared
ranges. -/
abbrev Tables : Type := Table ValueKey (List Bound) × SeedTable

def tables (b : Bounds) : Tables := (b.elements, b.seeds)

/-- What is found behind call sites that are entered one after the other. -/
def observe : List String → Bounds →
    Option ((ValueKey → Option Bound) × Tables)
  | [], b => some (b.get?, b.tables)
  | site :: rest, b => (b.sites.find? site).bind (observe rest)

/-- The scopes know the same, and so do the scopes of their calls. -/
def Same (a b : Bounds) : Prop := ∀ path, observe path a = observe path b

variable {a b c : Bounds}

theorem Same.refl (a : Bounds) : a.Same a := fun _ => rfl

theorem Same.symm (h : a.Same b) : b.Same a := fun path => (h path).symm

theorem Same.trans (h : a.Same b) (h' : b.Same c) : a.Same c := fun path => (h path).trans (h' path)

theorem Same.get? (h : a.Same b) (key : ValueKey) : a.get? key = b.get? key :=
  congrFun (Prod.ext_iff.mp (Option.some.inj (h []))).1 key

theorem Same.tables (h : a.Same b) : a.tables = b.tables := (Prod.ext_iff.mp (Option.some.inj (h []))).2

theorem Same.sites (h : a.Same b) (site : String) : Option.Rel Same (a.sites.find? site) (b.sites.find? site) := by
  have hpath : ∀ path, (a.sites.find? site).bind (observe path) = (b.sites.find? site).bind (observe path) :=
    fun path => h (site :: path)
  generalize a.sites.find? site = x, b.sites.find? site = y at hpath ⊢
  cases x with
  | none =>
    cases y with
    | none => exact .none
    | some y => simpa [observe] using hpath []
  | some x =>
    cases y with
    | none => simpa [observe] using hpath []
    | some y => exact .some hpath

theorem same_of_sites (hget : ∀ key, a.get? key = b.get? key) (htables : a.tables = b.tables)
    (hsites : ∀ site, Option.Rel Same (a.sites.find? site) (b.sites.find? site)) : a.Same b := by
  intro path
  cases path with
  | nil => exact congrArg some (Prod.ext (funext hget) htables)
  | cons site rest =>
    have hsite := hsites site
    unfold observe
    generalize a.sites.find? site = x, b.sites.find? site = y at hsite ⊢
    cases hsite with
    | none => rfl
    | some hxy => exact hxy rest

/-! ## 2. Operations on scopes -/

/-- The scopes know the same, and their tables are given ones. -/
structure Agree (tables : Tables) (a b : Bounds) : Prop where
  same : a.Same b
  tables : a.tables = tables

variable {tables : Tables} {child child' : Bounds}

section Agree

variable (h : a.Agree tables b)

include h

theorem Agree.get? : b.get? = a.get? := funext fun key => (h.same.get? key).symm

theorem Agree.tables' : b.tables = tables := h.same.tables.symm.trans h.tables

theorem Agree.withRanges {ranges ranges' : Table ValueKey Bound}
    (hranges : ∀ key, ranges.find? key = ranges'.find? key) :
    Agree tables { a with ranges := ranges } { b with ranges := ranges' } :=
  ⟨same_of_sites hranges h.same.tables h.same.sites, h.tables⟩

theorem Agree.insert (key : ValueKey) (i : Bound) :
    (a.insert key i).Agree tables (b.insert key i) :=
  h.withRanges fun k => by
    rw [find?_insert, find?_insert]
    exact if_congr Iff.rfl rfl (h.same.get? k)

theorem Agree.set (key : ValueKey) (i : Option Bound) :
    (a.set key i).Agree tables (b.set key i) :=
  h.withRanges fun k => by
    rw [find?_set, find?_set]
    exact if_congr Iff.rfl rfl (h.same.get? k)

theorem Agree.filterKeys (keep : ValueKey → Bool) :
    (a.filterKeys keep).Agree tables (b.filterKeys keep) :=
  h.withRanges fun k => by
    rw [find?_filter, find?_filter]
    exact if_congr Iff.rfl (h.same.get? k) rfl

end Agree

/-- The sites of a called function are taken over, unless there is one of that name. -/
theorem find?_mergeSites (site : String) (entries : List (String × Bounds)) :
    ∀ t : Table String Bounds, (entries.foldl (fun t (e : String × Bounds) =>
      if t.contains e.1 then t else t.insert e.1 e.2) t).find? site =
        (t.find? site).or (findIn site entries) := by
  induction entries with
  | nil => intro t; simp [findIn]
  | cons e rest ih =>
    intro t
    obtain ⟨name, scope⟩ := e
    rw [List.foldl_cons, ih, findIn]
    by_cases hname : name = site
    · subst hname
      cases ht : t.find? name with
      | none => simp [ht]
      | some x => simp [ht]
    · simp only [hname, if_false]
      split
      · rfl
      · rw [find?_insert, if_neg hname]

theorem rel_or {x y x' y' : Option Bounds} (h : Option.Rel Same x y) (h' : Option.Rel Same x' y') :
    Option.Rel Same (x.or x') (y.or y') := by
  cases h with
  | none => exact h'
  | some hxy => exact .some hxy

theorem Agree.mergeChild (h : a.Agree tables b) (hchild : child.Same child') :
    (a.mergeChild child).Agree tables (b.mergeChild child') := by
  refine ⟨same_of_sites (fun key => ?_) h.same.tables fun site => ?_, h.tables⟩
  · rw [get?_mergeChild_eq, get?_mergeChild_eq, h.same.get? key, hchild.get? key]
  · have hown := h.same.sites site
    have htaken : Option.Rel Same (findIn site child.sites.entries) (findIn site child'.sites.entries) :=
      hchild.sites site
    unfold Bounds.mergeChild
    dsimp only
    rw [find?_mergeSites, find?_mergeSites]
    exact rel_or hown htaken

theorem Agree.recordSite (h : a.Agree tables b) (hchild : child.Same child') (name : String) :
    (a.recordSite name child).Agree tables (b.recordSite name child') := by
  refine ⟨same_of_sites h.same.get? h.same.tables fun site => ?_, h.tables⟩
  unfold Bounds.recordSite
  dsimp only
  rw [find?_insert, find?_insert]
  split
  · exact .some hchild
  · exact h.same.sites site

/-! ## 3. Signatures -/

/-- Bit patterns tell intervals apart. -/
theorem bits_injective : Function.Injective fun i : Bound => (i.lo.toBits, i.hi.toBits) := by
  rintro ⟨lo, hi⟩ ⟨lo', hi'⟩ h
  obtain ⟨hlo, hhi⟩ := Prod.mk.inj h
  exact congrArg₂ Interval.mk (Float.toBits_inj.mp hlo) (Float.toBits_inj.mp hhi)

/-- Sorting by a key keeps the order of what has the same key. -/
theorem find?_mergeSort {β : Type} (l : List (Nat × β)) (g : Nat) :
    (l.mergeSort fun a b => a.1 ≤ b.1).find? (fun e => e.1 == g) = l.find? fun e => e.1 == g := by
  have hsame : ∀ e ∈ l.filter (fun e => e.1 == g), e.1 = g := fun e he => by
    simpa using (List.mem_filter.mp he).2
  have hpairwise : (l.filter fun e => e.1 == g).Pairwise fun a b => (decide (a.1 ≤ b.1)) = true :=
    List.pairwise_of_forall_mem_list fun a ha b hb => by rw [hsame a ha, hsame b hb]; simp
  have hsub := @List.sublist_mergeSort _ (fun a b : Nat × β => decide (a.1 ≤ b.1)) l
    (fun a b c hab hbc => decide_eq_true ((of_decide_eq_true hab).trans (of_decide_eq_true hbc)))
    (fun a b => by rcases Nat.le_total a.1 b.1 with h | h <;> simp [h]) _ hpairwise List.filter_sublist
  have hfilter := hsub.filter fun e => e.1 == g
  rw [List.filter_filter] at hfilter
  simp only [Bool.and_self] at hfilter
  rw [← List.head?_filter, ← List.head?_filter,
    hfilter.eq_of_length ((List.mergeSort_perm l _).filter _).length_eq.symm]

theorem find?_globalSignature (b : Bounds) (g : GlobalId) :
    b.globalSignature.find? (fun e => e.1 == g) =
      (b.get? (.global g)).map fun i => (g, i.lo.toBits, i.hi.toBits) := by
  refine (find?_mergeSort _ g).trans ?_
  unfold Bounds.get? find?
  induction b.ranges.entries with
  | nil => rfl
  | cons e rest ih =>
    obtain ⟨key, i⟩ := e
    cases key with
    | global g' =>
      rw [List.filterMap_cons, findIn]
      dsimp only
      by_cases hg : g' = g
      · subst hg
        simp
      · rw [List.find?_cons_of_neg (by simpa using hg), ih, if_neg (by simpa using hg)]
    | inst f j | arg f j =>
      rw [List.filterMap_cons, findIn, if_neg (by simp)]
      exact ih

/-- Calls with the same signature have the same arguments and know the same of the module. -/
theorem eq_of_signature {args args' : List (Option Bound)} (h : a.signature args = b.signature args') :
    args = args' ∧ ∀ g, a.get? (.global g) = b.get? (.global g) := by
  obtain ⟨hargs, hglobals⟩ := Signature.mk.inj h
  refine ⟨List.map_injective_iff.mpr (Option.map_injective bits_injective) hargs, fun g => ?_⟩
  have hfound := congrArg (List.find? fun e => e.1 == g) hglobals
  rw [find?_globalSignature, find?_globalSignature] at hfound
  refine Option.map_injective (fun i j hij => bits_injective ?_) hfound
  exact (Prod.mk.inj hij).2

theorem agree_child (hglobals : ∀ g, a.get? (.global g) = b.get? (.global g)) (ha : a.tables = tables)
    (hb : b.tables = tables) : a.child.Agree tables b.child := by
  refine ⟨same_of_sites (fun key => ?_) (ha.trans hb.symm) fun site => .none, ha⟩
  refine (find?_filter a.ranges (·.isGlobal) key).trans
    (Eq.trans ?_ (find?_filter b.ranges (·.isGlobal) key).symm)
  cases key with
  | global g => exact hglobals g
  | inst f i | arg f i => rfl

theorem agree_calleeScope (hglobals : ∀ g, a.get? (.global g) = b.get? (.global g)) (ha : a.tables = tables)
    (hb : b.tables = tables) (d : FuncId) (args : List (Option Bound)) :
    (State.calleeScope a d args).Agree tables (State.calleeScope b d args) := by
  refine List.foldl_rel (agree_child hglobals ha hb) fun x _ _ _ h => ?_
  obtain ⟨_ | i, j⟩ := x
  · exact h
  · exact h.insert _ i

end Bounds

/-! ## 4. States -/

/-- The states are at the same point of a function and their scopes know the same. The runs
they belong to may be different ones. -/
structure State.Alike (tables : Bounds.Tables) (s t : State) : Prop where
  frame : t.frame = s.frame
  bounds : s.bounds.Agree tables t.bounds

/-- The states are alike and come with the same result. -/
structure State.AlikeWith {α : Type} (tables : Bounds.Tables) (x y : State × α) : Prop where
  states : x.1.Alike tables y.1
  result : y.2 = x.2

namespace State

variable {tables : Bounds.Tables} {s t : State} (h : s.Alike tables t)

include h

theorem Alike.withRun (r r' : Run) :
    Alike tables { s with run := r } { t with run := r' } := ⟨h.frame, h.bounds⟩

theorem Alike.withFrame (g : Frame → Frame) :
    Alike tables { s with frame := g s.frame } { t with frame := g t.frame } := ⟨congrArg g h.frame, h.bounds⟩

theorem Alike.withAliases (g : AliasTable → AliasTable) :
    (s.withAliases g).Alike tables (t.withAliases g) := h.withFrame fun f => { f with aliases := g f.aliases }

theorem Alike.set (key : ValueKey) (i : Option Bound) :
    Alike tables { s with bounds := s.bounds.set key i } { t with bounds := t.bounds.set key i } :=
  ⟨h.frame, h.bounds.set key i⟩

theorem Alike.elements : t.bounds.elements = s.bounds.elements :=
  (Prod.mk.inj h.bounds.same.tables).1.symm

theorem Alike.seed? (name : String) : t.bounds.seed? name = s.bounds.seed? name := by
  unfold Bounds.seed?
  rw [(Prod.mk.inj h.bounds.same.tables).2]

theorem Alike.operand? : t.operand? = s.operand? := by
  funext op
  unfold State.operand? Bounds.operand?
  rw [h.frame, h.bounds.get?]

theorem Alike.forgetWhere (m : Module) (stale : ValueKey → Option ValueKey → Bool) :
    (s.forgetWhere m stale).Alike tables (t.forgetWhere m stale) := by
  refine ⟨h.frame, ?_⟩
  unfold State.forgetWhere
  rw [h.frame]
  exact h.bounds.filterKeys _

theorem Alike.invalidate (root : Option ValueKey) :
    (s.invalidate root).Alike tables (t.invalidate root) := by
  cases root with
  | none => exact h.withAliases (·.invalidateAll)
  | some root => exact h.withAliases (·.invalidate root)

theorem Alike.restore (m : Module) (mem : MemoryState) :
    (s.restore m mem).Alike tables (t.restore m mem) := by
  refine ⟨congrArg (fun f : Frame => f.restoreUnions mem) h.frame, ?_⟩
  unfold State.restore Frame.restoreSlots
  rw [h.frame]
  exact List.foldl_rel h.bounds fun k _ _ _ hab => hab.set k (mem.slots.find? k)

theorem Alike.snapshot (m : Module) :
    t.frame.snapshot m t.bounds = s.frame.snapshot m s.bounds := by
  unfold Frame.snapshot
  rw [h.frame, h.bounds.get?]

theorem Alike.conclude (i : InstId) (o : Outcome) :
    AlikeWith tables (s.conclude i o) (t.conclude i o) :=
  ⟨⟨by simp [h.frame], by simpa using h.bounds⟩, rfl⟩

/-! ## 5. Instructions -/

theorem Alike.load (ty : Ty) (ptr : Operand) : t.load ty ptr = s.load ty ptr := by
  unfold State.load readAt
  rw [h.frame, h.bounds.get?]

theorem Alike.forgetOverlaps (m : Module) (ptr : Operand) (addr : ValueKey) :
    (s.forgetOverlaps m ptr addr).Alike tables (t.forgetOverlaps m ptr addr) := by
  have hexact : t.isExact = s.isExact := by
    unfold isExact
    rw [h.frame]
  unfold State.forgetOverlaps
  rw [h.frame, hexact]
  dsimp only
  split
  · exact h.forgetWhere m _
  · exact (h.forgetWhere m _).invalidate _

theorem Alike.storedValue (slot : ValueKey) (value : Operand) :
    AlikeWith tables (s.storedValue slot value) (t.storedValue slot value) := by
  unfold State.storedValue
  rw [h.operand?]
  cases s.operand? value with
  | some i => exact ⟨h, rfl⟩
  | none =>
    cases value with
    | arg index =>
      dsimp only
      unfold storeArgument
      rw [h.frame]
      cases s.frame.declared.find? slot with
      | some i => exact ⟨⟨rfl, h.bounds.insert _ i⟩, rfl⟩
      | none => exact ⟨⟨rfl, h.bounds⟩, rfl⟩
    | inst j | global g | const c | undef => exact ⟨h, rfl⟩

theorem Alike.store (m : Module) (value : Operand) (valueTy : Ty) (ptr : Operand) :
    (s.store m value valueTy ptr).Alike tables (t.store m value valueTy ptr) := by
  unfold State.store
  rw [h.frame]
  cases s.frame.key? ptr with
  | none => exact h
  | some addr =>
    have hforget := h.forgetOverlaps m ptr addr
    dsimp only
    rw [hforget.frame]
    obtain ⟨hstored, hvalue⟩ := (hforget.withFrame (·.addMemory ((s.forgetOverlaps m ptr addr).frame.aliases.slot addr))).storedValue
      ((s.forgetOverlaps m ptr addr).frame.aliases.slot addr) value
    rw [hforget.frame] at hstored hvalue
    rw [hvalue]
    exact (hstored.set _ _).withAliases _

theorem Alike.view (i : InstId) (value : Operand) (src dst : Ty) :
    AlikeWith tables (s.view i value src dst) (t.view i value src dst) := by
  unfold State.view
  rw [h.operand?, h.frame]
  split
  · cases s.frame.key? value with
    | none => exact ⟨h, rfl⟩
    | some target =>
      have hview := (h.withAliases (·.registerView (.inst s.frame.id i) target)).withFrame (·.addMemory (.inst s.frame.id i))
      refine ⟨hview, ?_⟩
      unfold readUnion
      dsimp only
      rw [(h.withAliases (·.registerView (.inst s.frame.id i) target)).frame]
  · cases s.operand? value with
    | none => exact ⟨h, rfl⟩
    | some x =>
      dsimp only
      split
      · split
        · exact ⟨h, rfl⟩
        · exact h.conclude i _
      · exact h.conclude i _

theorem Alike.elementPtr (layout : DataLayout) (i : InstId) (ty source : Ty) (base : Operand)
    (indices : List (Ty × Operand)) :
    AlikeWith tables (s.elementPtr layout i ty source base indices) (t.elementPtr layout i ty source base indices) := by
  have htable : t.tableIndex? = s.tableIndex? := by
    unfold tableIndex? Bounds.elements?
    rw [h.elements]
  have hadd := h.withFrame (·.addMemory (.inst s.frame.id i))
  unfold State.elementPtr
  rw [h.operand?, htable]
  obtain ⟨run, frame, bounds⟩ := t
  obtain rfl : frame = s.frame := h.frame
  dsimp only
  cases s.frame.key? base with
  | none => exact ⟨h, rfl⟩
  | some baseKey =>
    dsimp only
    cases s.tableIndex? baseKey indices with
    | some found => exact ⟨h, rfl⟩
    | none =>
      dsimp only
      cases layout.elementOffset source indices with
      | some bits =>
        have hfield := hadd.withAliases (·.registerField (.inst s.frame.id i) baseKey bits)
        unfold State.withAliases at hfield ⊢
        dsimp only
        split_ifs
        · exact ⟨hfield, rfl⟩
        · exact ⟨hfield, congrFun h.bounds.get? _⟩
      | none =>
        dsimp only
        split
        · exact ⟨hadd, congrFun h.bounds.get? _⟩
        · exact ⟨hadd, rfl⟩

theorem Alike.bindVariable (dbg : Option DebugBinding) (args : List (Ty × Operand)) :
    (s.bindVariable dbg args).Alike tables (t.bindVariable dbg args) := by
  unfold State.bindVariable
  split
  next d ty op rest =>
    rw [h.seed?]
    obtain ⟨run, frame, bounds⟩ := t
    obtain rfl : frame = s.frame := h.frame
    dsimp only
    split
    next key i _ _ =>
      have hbound := h.bounds.insert (s.frame.aliases.slot key) i
      unfold Frame.addMemory
      split_ifs <;> dsimp only <;> cases s.frame.pendingArgs.find? (s.frame.aliases.slot key)
      all_goals first | exact ⟨rfl, hbound⟩ | exact ⟨rfl, hbound.insert _ i⟩
    next => exact h
  next => exact h

theorem Alike.clobber (m : Module) (args : List (Ty × Operand)) :
    (s.clobber m args).Alike tables (t.clobber m args) := by
  unfold State.clobber
  rw [h.frame]
  dsimp only
  split
  · exact (h.forgetWhere m _).invalidate none
  · exact List.foldl_rel (h.forgetWhere m _) fun root _ _ _ h => h.invalidate root

theorem Alike.callExternal (m : Module) (i : InstId) (callee : String)
    (args : List (Ty × Operand)) : AlikeWith tables (s.callExternal m i callee args) (t.callExternal m i callee args) := by
  have hknown : ∀ {s t : State}, s.Alike tables t → t.knownArgs args = s.knownArgs args := fun h => by
    unfold knownArgs
    rw [h.operand?]
  have hclobber := h.clobber m args
  unfold State.callExternal
  cases Routine.ofName? callee with
  | some routine => exact ⟨h, by rw [hknown h]⟩
  | none =>
    dsimp only
    rw [hknown hclobber]
    split
    · exact ⟨hclobber, rfl⟩
    · exact hclobber.conclude i _

/-! ## 6. Calls -/

/-- What is behind a call, given the run and the summary that it leaves. -/
def takeOver (s : State) (m : Module) (i : InstId) (d : FuncId) (g : Function) (args : List (Ty × Operand))
    (called : Run × Summary) : State × Option Bound :=
  let taken := ({ s with run := called.1 } : State).applySummary m d args called.2.scope
  let recorded : State :=
    { taken with bounds := taken.bounds.recordSite (siteName g.name (s.argBounds args)) called.2.scope }
  (recorded.checkRange i g called.2.result, called.2.result)

omit h in
theorem callDefined_eq_takeOver {ctx : Context} {d : FuncId} {g : Function} (h : s.refusal? ctx d g.name = none)
    (descend : Descent) (i : InstId) (args : List (Ty × Operand)) :
    s.callDefined ctx descend i d g args =
      s.takeOver ctx.module i d g args (s.summarize ctx descend i d (s.argBounds args)) := by
  unfold callDefined
  rw [h]
  rfl

theorem Alike.argBounds (args : List (Ty × Operand)) : t.argBounds args = s.argBounds args := by
  unfold State.argBounds
  rw [h.operand?]

variable {scope scope' : Bounds}

theorem Alike.mergeChild (hscope : scope.Same scope') :
    Alike tables { s with bounds := s.bounds.mergeChild scope } { t with bounds := t.bounds.mergeChild scope' } :=
  ⟨h.frame, h.bounds.mergeChild hscope⟩

theorem Alike.recordSite (hscope : scope.Same scope') (name : String) :
    Alike tables { s with bounds := s.bounds.recordSite name scope }
      { t with bounds := t.bounds.recordSite name scope' } := ⟨h.frame, h.bounds.recordSite hscope name⟩

theorem Alike.forgetPointee (m : Module) (p : PointerArg) :
    (s.forgetPointee m p).Alike tables (t.forgetPointee m p) := (h.forgetWhere m _).invalidate p.root

theorem Alike.adoptPointee (hscope : scope.Same scope') (callee : FuncId)
    (all : List PointerArg) (p : PointerArg) :
    (s.adoptPointee callee scope all p).Alike tables (t.adoptPointee callee scope' all p) := by
  unfold State.adoptPointee
  rw [hscope.get?]
  dsimp only
  split_ifs
  · cases scope'.get? (.arg callee p.index) with
    | none => exact h
    | some i =>
      dsimp only
      rw [h.frame]
      exact ⟨rfl, h.bounds.insert _ i⟩
  · exact h

theorem Alike.applySummary (hscope : scope.Same scope') (m : Module)
    (callee : FuncId) (args : List (Ty × Operand)) :
    (s.applySummary m callee args scope).Alike tables (t.applySummary m callee args scope') := by
  -- the memory behind the arguments is forgotten last
  have hpointees : ∀ {s t : State}, s.Alike tables t → Alike tables
      ((s.pointerArgs args).foldl (fun s' p => s'.adoptPointee callee scope (s.pointerArgs args) p)
        ((s.pointerArgs args).foldl (fun s p => s.forgetPointee m p) s))
      ((t.pointerArgs args).foldl (fun s' p => s'.adoptPointee callee scope' (t.pointerArgs args) p)
        ((t.pointerArgs args).foldl (fun s p => s.forgetPointee m p) t)) := by
    intro s t h
    have hpointers : t.pointerArgs args = s.pointerArgs args := by
      unfold pointerArgs
      rw [h.frame]
    rw [hpointers]
    exact List.foldl_rel (List.foldl_rel h fun p _ _ _ h => h.forgetPointee m p)
      fun p _ _ _ h => h.adoptPointee hscope callee _ p
  exact hpointees ((h.forgetWhere m _).mergeChild hscope)

theorem Alike.takeOver {called called' : Run × Summary}
    (hresult : called'.2.result = called.2.result) (hscope : called.2.scope.Same called'.2.scope) (m : Module)
    (i : InstId) (d : FuncId) (g : Function) (args : List (Ty × Operand)) :
    AlikeWith tables (s.takeOver m i d g args called) (t.takeOver m i d g args called') := by
  have htaken := (h.withRun called.1 called'.1).applySummary hscope m d args
  have hrecorded := htaken.recordSite hscope (siteName g.name (s.argBounds args))
  have hchecked : ∀ {s t : State}, s.Alike tables t → ∀ result,
      (s.checkRange i g result).Alike tables (t.checkRange i g result) := by
    intro s t h result
    obtain ⟨hbounds, hframe, -⟩ := checkRange_same s i g result
    obtain ⟨hbounds', hframe', -⟩ := checkRange_same t i g result
    exact ⟨by rw [hframe, hframe', h.frame], by rw [hbounds, hbounds']; exact h.bounds⟩
  refine ⟨?_, hresult⟩
  unfold State.takeOver
  dsimp only
  rw [h.argBounds, hresult]
  exact hchecked hrecorded called.2.result

/-- An instruction that is no call of a defined function does the same in states that are
alike. -/
theorem Alike.transfer {ctx ctx' : Context} (hmodule : ctx'.module = ctx.module)
    (hlayout : ctx'.layout = ctx.layout) (descend descend' : Descent) (i : InstId) (inst : Inst)
    (hcall : ∀ callee args, inst.kind = .call callee args →
      Scope.isDebugName callee = true ∨ ctx.module.functionNamed? callee = none) :
    AlikeWith tables (s.transfer ctx descend i inst) (t.transfer ctx' descend' i inst) := by
  unfold State.transfer
  rw [h.operand?, hmodule, hlayout]
  cases hkind : inst.kind with
  | binary op lhs rhs => exact h.conclude i _
  | cast op v src =>
    dsimp only
    split
    · exact h.conclude i _
    · exact ⟨h, rfl⟩
  | view v src => exact h.view i v src inst.ty
  | load ptr ptrTy align => exact ⟨h, h.load inst.ty ptr⟩
  | store v ty ptr ptrTy align => exact ⟨h.store ctx.module v ty ptr, rfl⟩
  | elementPtr inbounds source base baseTy indices => exact h.elementPtr ctx.layout i inst.ty source base indices
  | call callee args =>
    dsimp only
    unfold State.call
    rw [hmodule]
    split_ifs with hdebug
    · exact ⟨h.bindVariable inst.dbg args, rfl⟩
    · rw [(hcall callee args hkind).resolve_left hdebug]
      exact h.callExternal ctx.module i callee args
  | ret v =>
    refine ⟨⟨?_, h.bounds⟩, rfl⟩
    unfold State.ret
    rw [h.operand?, h.frame]
  | phi incoming =>
    refine ⟨h, ?_⟩
    unfold State.phi
    rw [h.operand?]
  | fneg | alloca | icmp | fcmp | br | condBr => exact ⟨h, rfl⟩

/-- Record the result of an instruction if it is known. -/
def note (i : InstId) (x : State × Option Bound) : State :=
  match x.2 with
  | some r => { x.1 with bounds := x.1.bounds.insert (.inst x.1.frame.id i) r }
  | none => x.1

omit h in
theorem step_eq_note {i : InstId} {inst : Inst} (hinst : s.frame.function.inst? i = some inst) (ctx : Context)
    (descend : Descent) : s.step ctx descend i = note i (s.transfer ctx descend i inst) := by
  unfold step
  rw [hinst]
  rfl

omit h in
@[simp] theorem note_run (i : InstId) (x : State × Option Bound) : (note i x).run = x.1.run := by
  unfold note
  split <;> rfl

omit h in
@[simp] theorem note_frame (i : InstId) (x : State × Option Bound) : (note i x).frame = x.1.frame := by
  unfold note
  split <;> rfl

omit h in
theorem AlikeWith.note {x y : State × Option Bound} (h : AlikeWith tables x y) (i : InstId) :
    (note i x).Alike tables (note i y) := by
  obtain ⟨hstates, hresult⟩ := h
  unfold State.note
  rw [hresult]
  cases x.2 with
  | none => exact hstates
  | some r =>
    dsimp only
    rw [hstates.frame]
    exact ⟨rfl, hstates.bounds.insert _ r⟩

/-! ## 7. Blocks -/

theorem Alike.enterBlock (m : Module) (b : BlockId) :
    (s.enterBlock m b).Alike tables (t.enterBlock m b) := by
  have hentry : t.entryState m b = s.entryState m b := by
    unfold entryState
    rw [h.snapshot, h.frame]
  unfold State.enterBlock
  rw [hentry]
  cases s.entryState m b with
  | none => exact h
  | some mem => exact h.restore m mem

theorem Alike.close {ctx ctx' : Context} (hmodule : ctx'.module = ctx.module)
    (descend descend' : Descent) (b : BlockId) :
    (s.perform ctx descend (.close b)).Alike tables (t.perform ctx' descend' (.close b)) := by
  unfold perform
  rw [hmodule, h.snapshot]
  exact h.withFrame fun f => { f with exits := f.exits.insert b (s.frame.snapshot ctx.module s.bounds) }

theorem Alike.leave (m : Module) : (s.leave m).Alike tables (t.leave m) := by
  unfold State.leave
  rw [h.frame]
  exact h.restore m _

end State

end RangedIR
