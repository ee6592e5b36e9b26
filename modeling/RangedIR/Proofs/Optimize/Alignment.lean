/-
RangedIR.Proofs.Optimize.Alignment — alignments are nobody else's business.

Correcting alignments changes the alignments of stores, of some loads and of some allocas,
and nothing else. No other rewriting looks at an alignment or makes one, so it is the same
whether they come before or after.
-/
import RangedIR.Optimize.Alignment
import RangedIR.Proofs.Optimize.Flow

namespace RangedIR

open InstKind

/-! ## 1. Instructions -/

/-- The instruction with the alignment that its type asks for: a store with that of what is
stored, a load with that of its result if it is `selected`, and an alloca of a structure
with that of the structure. Other alignments stay. -/
def InstKind.aligned (l : DataLayout) (ty : Ty) (selected : Bool) : InstKind → InstKind
  | .store v vt ptr pt _ => .store v vt ptr pt (some (l.abiAlign vt))
  | .load ptr pt a => .load ptr pt (if selected then some (l.abiAlign ty) else a)
  | .alloca t a => .alloca t (if t.isStruct then some (l.abiAlign t) else a)
  | k => k

namespace InstKind

variable (l : DataLayout) (ty : Ty) (s : Bool) (k : InstKind)

theorem aligned_mapOperands (σ : Operand → Operand) : (k.mapOperands σ).aligned l ty s = (k.aligned l ty s).mapOperands σ := by
  cases k <;> rfl

theorem aligned_filterIncoming (p : BlockId → Bool) :
    (k.filterIncoming p).aligned l ty s = (k.aligned l ty s).filterIncoming p := by
  cases k <;> rfl

theorem aligned_moved (number : BlockId → Option BlockId) :
    (k.moved number).aligned l ty s = (k.aligned l ty s).moved number := by
  cases k <;> rfl

theorem aligned_literalRight : k.literalRight.aligned l ty s = (k.aligned l ty s).literalRight := by
  cases k with
  | icmp | fcmp =>
    unfold literalRight
    dsimp only [aligned]
    split_ifs <;> rfl
  | _ => rfl

@[simp] theorem outcome?_aligned (lookup : Operand → Option Bound) : (k.aligned l ty s).outcome? lookup = k.outcome? lookup := by
  cases k <;> rfl

@[simp] theorem isTerminator_aligned : (k.aligned l ty s).isTerminator = k.isTerminator := by cases k <;> rfl

@[simp] theorem successors_aligned : (k.aligned l ty s).successors = k.successors := by cases k <;> rfl

@[simp] theorem onlyTarget?_aligned : Function.onlyTarget? (k.aligned l ty s) = Function.onlyTarget? k := by cases k <;> rfl

@[simp] theorem onlyIncoming?_aligned (i : InstId) : Function.onlyIncoming? i (k.aligned l ty s) = Function.onlyIncoming? i k := by
  cases k <;> rfl

end InstKind

section Realign

variable (id : FuncId) (b : Bounds) (l : DataLayout)

/-- An instruction with its alignment corrected. -/
def Inst.realigned (u : InstId) (inst : Inst) : Inst :=
  { inst with kind := inst.kind.aligned l inst.ty (inst.dbg.isSome && b.contains (.inst id u)) }

/-- A function with all alignments corrected. -/
def Function.realign (f : Function) : Function := { f with insts := f.insts.mapIdx (Inst.realigned id b l) }

namespace Function

variable {id b l} {f g g' : Function} {i : InstId} {ids : List InstId} {inst : Inst}

section Missing

attribute [local simp] Inst.realigned aligned missingAlign? alignmentOf? withAlign?

theorem realigned_realigned : (inst.realigned id b l i).realigned id b l i = inst.realigned id b l i := by
  obtain ⟨name, kind, ty, dbg, block, erased⟩ := inst
  cases kind with
  | load => cases hs : dbg.isSome && b.contains (.inst id i) <;> simp [hs]
  | alloca t => cases ht : t.isStruct <;> simp [ht]
  | _ => rfl

/-- An alignment is missing unless the instruction has it or needs none. -/
theorem missingAlign?_cases (id : FuncId) (b : Bounds) (l : DataLayout) (i : InstId) (inst : Inst) :
    (missingAlign? id b l i inst = none ∧ inst.realigned id b l i = inst) ∨
      ∃ a, missingAlign? id b l i inst = some a ∧ inst.kind.withAlign? a = some (inst.realigned id b l i).kind := by
  obtain ⟨name, kind, ty, dbg, block, erased⟩ := inst
  cases kind with
  | store v vt ptr pt a =>
    by_cases ha : a = some (l.abiAlign vt) <;> simp [ha]
  | load ptr pt a =>
    cases hs : dbg.isSome && b.contains (.inst id i) <;> by_cases ha : a = some (l.abiAlign ty) <;> simp [hs, ha]
  | alloca t a =>
    cases ht : t.isStruct <;> by_cases ha : a = some (l.abiAlign t) <;> simp [ht, ha]
  | _ => exact .inl ⟨rfl, rfl⟩

theorem missingAlign?_realigned : missingAlign? id b l i (inst.realigned id b l i) = none := by
  obtain ⟨name, kind, ty, dbg, block, erased⟩ := inst
  cases kind with
  | store => simp
  | load => cases hs : dbg.isSome && b.contains (.inst id i) <;> simp [hs]
  | alloca t => cases ht : t.isStruct <;> simp [ht]
  | _ => rfl

end Missing

/-! ## 2. Functions -/

theorem inst?_realign (u : InstId) : (f.realign id b l).inst? u = (f.inst? u).map (Inst.realigned id b l u) := by
  unfold realign inst?
  rw [List.getElem?_mapIdx]

theorem eq_of_inst? (hheader : { g with insts := f.insts } = f) (hinst : ∀ u, g.inst? u = f.inst? u) : g = f := by
  have hinsts : g.insts = f.insts := List.ext_getElem? hinst
  rwa [← hinsts] at hheader

theorem correctIn_cons (id : FuncId) (b : Bounds) (l : DataLayout) (i : InstId) (ids : List InstId) (f : Function) :
    ∃ f₁, (correctIn id b l (i :: ids) f).1 = (correctIn id b l ids f₁).1 ∧ { f₁ with insts := f.insts } = f ∧
    ∀ u, f₁.inst? u = (f.inst? u).map fun inst => if u = i then inst.realigned id b l u else inst := by
  cases hi : f.inst? i with
  | none =>
    refine ⟨f, by simp only [correctIn, hi], rfl, fun u => ?_⟩
    by_cases hu : u = i <;> simp [hu, hi]
  | some inst =>
    rcases missingAlign?_cases id b l i inst with ⟨hnone, hsame⟩ | ⟨a, ha, hkind⟩
    · refine ⟨f, by simp only [correctIn, hi, hnone], rfl, fun u => ?_⟩
      by_cases hu : u = i <;> simp [hu, hi, hsame]
    · have hset : f.setAlign? i a =
          some (f.modifyInst i fun old => { old with kind := (inst.realigned id b l i).kind }) := by
        simp [setAlign?, hi, hkind]
      refine ⟨f.modifyInst i fun old => { old with kind := (inst.realigned id b l i).kind },
        by simp only [correctIn, hi, ha, hset, Option.getD_some], rfl, fun u => ?_⟩
      rw [inst?_modifyInst]
      by_cases hu : u = i
      · simp [hu, hi, Inst.realigned]
      · simp [hu, Ne.symm hu]

/-- What the correction of some instructions makes of a function. -/
theorem correctIn_eq (id : FuncId) (b : Bounds) (l : DataLayout) (ids : List InstId) (f : Function) :
    { (correctIn id b l ids f).1 with insts := f.insts } = f ∧
    ∀ u, (correctIn id b l ids f).1.inst? u =
      (f.inst? u).map fun inst => if u ∈ ids then inst.realigned id b l u else inst := by
  induction ids generalizing f with
  | nil => exact ⟨rfl, fun u => by simp [correctIn]⟩
  | cons i rest ih =>
    obtain ⟨f₁, hnext, hheader, hinst⟩ := correctIn_cons id b l i rest f
    obtain ⟨hheader', hinst'⟩ := ih f₁
    rw [hnext]
    refine ⟨(congrArg (fun k : Function => { k with insts := f.insts }) hheader').trans hheader, fun u => ?_⟩
    rw [hinst', hinst, Option.map_map]
    congr 1
    funext inst
    by_cases hu : u = i <;> by_cases hr : u ∈ rest <;> simp [hu, hr, realigned_realigned]

theorem correctIn_of_none (h : ∀ i ∈ ids, ∀ inst, f.inst? i = some inst → missingAlign? id b l i inst = none) :
    correctIn id b l ids f = (f, .zero) := by
  induction ids with
  | nil => rfl
  | cons i rest ih =>
    have hrest := ih fun j hj => h j (List.mem_cons_of_mem _ hj)
    unfold correctIn
    cases hi : f.inst? i with
    | none => exact hrest
    | some inst =>
      simp only [h i List.mem_cons_self inst hi]
      exact hrest

/-! ## 3. Changes of functions -/

/-- A change of every instruction by itself that does not mind alignments. -/
theorem eq_realign {F : InstId → Inst → Inst} (hheader : { g' with insts := g.insts } = g)
    (hg : ∀ u, g.inst? u = (f.inst? u).map (F u)) (hg' : ∀ u, g'.inst? u = ((f.realign id b l).inst? u).map (F u))
    (hF : ∀ u inst, F u (inst.realigned id b l u) = (F u inst).realigned id b l u) : g' = g.realign id b l := by
  refine eq_of_inst? (congrArg (fun k : Function => { k with insts := (g.realign id b l).insts }) hheader) fun u => ?_
  rw [hg', inst?_realign, inst?_realign, hg, Option.map_map, Option.map_map]
  exact congrArg (Option.map · (f.inst? u)) (funext (hF u))

theorem replaceBy_realign (op : Operand) : (f.realign id b l).replaceBy i op = (f.replaceBy i op).realign id b l := by
  have huses : (f.realign id b l).replaceUses i op = (f.replaceUses i op).realign id b l := by
    refine eq_realign rfl (fun u => inst?_replaceUses u) (fun u => inst?_replaceUses u) fun u inst => ?_
    by_cases hu : u ∈ f.layout <;> simp [Inst.realigned, hu, aligned_mapOperands]
  unfold replaceBy
  rw [huses]
  refine eq_realign ?_ (fun u => inst?_erase i u) (fun u => inst?_erase i u) fun u inst => ?_
  · unfold erase
    rw [inst?_realign]
    cases (f.replaceUses i op).inst? i <;> rfl
  · by_cases hu : u = i <;> simp [Inst.realigned, hu]

theorem modifyInst_realign {F : Inst → Inst} (hF : ∀ inst, F (inst.realigned id b l i) = (F inst).realigned id b l i) :
    (f.realign id b l).modifyInst i F = (f.modifyInst i F).realign id b l := by
  refine eq_realign rfl (fun u => inst?_modifyInst i u F) (fun u => inst?_modifyInst i u F) fun u inst => ?_
  by_cases hu : i = u
  · simpa [← hu] using hF inst
  · simp [hu]

theorem retainBlocks_realign (keep : List Bool) :
    (f.realign id b l).retainBlocks keep = (f.retainBlocks keep).realign id b l := by
  refine eq_realign rfl (fun u => f.inst?_retainBlocks keep u) (fun u => (f.realign id b l).inst?_retainBlocks keep u)
    fun u inst => ?_
  by_cases hu : u ∈ f.dropped keep
  · simp [Inst.realigned, hu]
  · cases herased : inst.erased <;> simp [Inst.realigned, hu, herased, aligned_moved]

/-- An instruction has no more than another alignment. -/
theorem kind?_realign (id : FuncId) (b : Bounds) (l : DataLayout) (f : Function) (u : InstId) :
    ∃ ty s, (f.realign id b l).kind? u = (f.kind? u).map (aligned l ty s) := by
  unfold kind?
  rw [inst?_realign]
  cases f.inst? u with
  | none => exact ⟨.void, false, rfl⟩
  | some inst => exact ⟨_, _, rfl⟩

theorem bind_kind?_realign {α : Type} {read : InstKind → Option α}
    (hread : ∀ ty s k, read (aligned l ty s k) = read k) (u : InstId) :
    ((f.realign id b l).kind? u).bind read = (f.kind? u).bind read := by
  obtain ⟨ty, s, hk⟩ := f.kind?_realign id b l u
  rw [hk, Option.bind_map]
  exact congrArg _ (funext (hread ty s))

theorem successors_realign : (f.realign id b l).successors = f.successors ∧
    (f.realign id b l).terminator? = f.terminator? := by
  have hterm : (f.realign id b l).terminator? = f.terminator? := by
    funext c
    unfold terminator?
    congr 1
    funext block
    congr 1
    funext last
    exact bind_kind?_realign (fun ty s k => by rw [isTerminator_aligned]) last
  refine ⟨funext fun c => ?_, hterm⟩
  unfold successors
  rw [hterm]
  cases f.terminator? c with
  | none => rfl
  | some t =>
    obtain ⟨ty, s, hk⟩ := f.kind?_realign id b l t
    rw [Option.bind_some, Option.bind_some, hk]
    cases f.kind? t <;> simp

theorem dropStaleIncoming_realign : (f.realign id b l).dropStaleIncoming = f.dropStaleIncoming.realign id b l := by
  have hpreds : (f.realign id b l).predecessors = f.predecessors := by
    unfold predecessors edges
    rw [successors_realign.1]
    rfl
  refine eq_realign (f := f) (F := fun u inst => if f.layout.contains u then
    { inst with kind := inst.kind.filterIncoming fun c => (f.predecessors[inst.block]?.getD []).contains c } else inst) rfl ?_ ?_ ?_
  · intro u
    unfold dropStaleIncoming inst?
    rw [List.getElem?_mapIdx]
  · intro u
    unfold dropStaleIncoming inst?
    rw [List.getElem?_mapIdx, hpreds]
    rfl
  · intro u inst
    by_cases hu : u ∈ f.layout <;> simp [Inst.realigned, hu, aligned_filterIncoming]

/-! ## 4. Rewritings -/

theorem foldCompares_realign (ids : List InstId) (f : Function) : foldCompares id b ids (f.realign id b l) =
    ((foldCompares id b ids f).1.realign id b l, (foldCompares id b ids f).2) := by
  induction ids generalizing f with
  | nil => rfl
  | cons i rest ih =>
    unfold foldCompares
    dsimp only
    rw [modifyInst_realign fun inst => by simp [Inst.realigned, aligned_literalRight],
      bind_kind?_realign fun ty s k => k.outcome?_aligned l ty s _]
    split
    next => rw [replaceBy_realign, ih]
    next => exact ih _

theorem foldBranch_realign (c : BlockId) :
    (f.realign id b l).foldBranch c = ((f.foldBranch c).1.realign id b l, (f.foldBranch c).2) := by
  unfold foldBranch
  rw [successors_realign.2]
  split
  next => rfl
  next t _ =>
    rw [bind_kind?_realign fun ty s k => k.onlyTarget?_aligned l ty s]
    split
    next target _ => rw [modifyInst_realign (F := fun i => { i with kind := .br target }) fun _ => rfl]
    next => rfl

theorem foldBranches_realign (cs : List BlockId) (f : Function) : foldBranches cs (f.realign id b l) =
    ((foldBranches cs f).1.realign id b l, (foldBranches cs f).2) := by
  induction cs generalizing f with
  | nil => rfl
  | cons c rest ih =>
    unfold foldBranches
    rw [foldBranch_realign]
    dsimp only
    rw [ih]

theorem removeUnreachable_realign :
    (f.realign id b l).removeUnreachable = (f.removeUnreachable.1.realign id b l, f.removeUnreachable.2) := by
  have hreachable : (f.realign id b l).reachable none = f.reachable none := by
    unfold reachable reachableBlocks
    rw [successors_realign.1]
    rfl
  unfold removeUnreachable
  dsimp only
  rw [hreachable, retainBlocks_realign]
  split_ifs <;> rfl

/-- A choice of operands that no alignment changes is the same before and after. -/
theorem replaceEach_realign {choose : Function → InstId → Option Operand}
    (h : ∀ f i, choose (f.realign id b l) i = choose f i) (ids : List InstId) (f : Function) :
    replaceEach choose ids (f.realign id b l) = (replaceEach choose ids f).realign id b l := by
  induction ids generalizing f with
  | nil => rfl
  | cons i rest ih =>
    rw [replaceEach, replaceEach, h]
    cases choose f i with
    | none => exact ih f
    | some op => exact (congrArg _ (replaceBy_realign op)).trans (ih _)

theorem collapsePhis_realign (ids : List InstId) (f : Function) :
    (collapsePhis ids (f.realign id b l)).1 = (collapsePhis ids f).1.realign id b l := by
  rw [collapsePhis_fst, collapsePhis_fst]
  exact replaceEach_realign (fun f i => bind_kind?_realign (fun ty s k => k.onlyIncoming?_aligned l ty s i) i) ids f

theorem simplifyControlFlow_realign :
    ((f.realign id b l).simplifyControlFlow id b).1 = (f.simplifyControlFlow id b).1.realign id b l := by
  have hlayout : ∀ f : Function, (f.realign id b l).layout = f.layout := fun _ => rfl
  have hblocks : ∀ f : Function, (f.realign id b l).blocks = f.blocks := fun _ => rfl
  unfold simplifyControlFlow
  simp only [hlayout, hblocks, foldCompares_realign, foldBranches_realign, dropStaleIncoming_realign,
    removeUnreachable_realign, collapsePhis_realign]

theorem substituteConstants_realign :
    ((f.realign id b l).substituteConstants id b).1 = (f.substituteConstants id b).1.realign id b l := by
  rw [substituteConstants, substituteConstants, substituteIn_fst, substituteIn_fst]
  refine replaceEach_realign (fun f i => congrArg _ ?_) f.layout f
  unfold literalResult?
  rw [inst?_realign]
  cases f.inst? i with
  | none => rfl
  | some inst =>
    obtain ⟨name, kind, ty, dbg, block, erased⟩ := inst
    cases kind <;> rfl

/-! ## 5. What is seen -/

/-- Functions that differ at most in instructions that no block lists. -/
structure LooksLike (f g : Function) : Prop where
  header : { g with insts := f.insts } = f
  listed : ∀ i ∈ f.layout, g.inst? i = f.inst? i
  names : ∀ i, (g.inst? i).map (·.name) = (f.inst? i).map (·.name)

theorem mapM_congr {α β : Type} {p q : α → Option β} {xs : List α} (h : ∀ x ∈ xs, p x = q x) : xs.mapM p = xs.mapM q := by
  induction xs with
  | nil => rfl
  | cons x rest ih =>
    rw [List.mapM_cons, List.mapM_cons, h x List.mem_cons_self, ih fun y hy => h y (List.mem_cons_of_mem _ hy)]

/-- Only what blocks list is written out, and names are those of all instructions. -/
theorem LooksLike.text?_eq (h : f.LooksLike g) (m : Module) : g.text? m = f.text? m := by
  obtain ⟨hblocks, hparams, hheader⟩ : g.blocks = f.blocks ∧ g.params = f.params ∧ g.header = f.header := by
    rw [← h.header]
    exact ⟨rfl, rfl, rfl⟩
  have hvalue : g.valueName? = f.valueName? := by
    funext op
    cases op with
    | inst i =>
      have hname := h.names i
      unfold valueName?
      cases hg : g.inst? i <;> cases hf : f.inst? i <;> simp_all
    | arg => simp only [valueName?, hparams]
    | _ => rfl
  have hnaming : Naming.ofFunction m g = Naming.ofFunction m f := by
    unfold Naming.ofFunction
    rw [hvalue, hblocks]
  have hblock : ∀ block ∈ f.blocks, g.blockText? m block = f.blockText? m block := by
    intro block hblock
    unfold blockText?
    rw [hnaming, mapM_congr fun i hi => by rw [h.listed i (List.mem_flatMap.mpr ⟨block, hblock, hi⟩)]]
  unfold text?
  rw [hblocks, mapM_congr hblock, hheader]

theorem looksLike_correctAlignment (id : FuncId) (b : Bounds) (l : DataLayout) (f : Function) :
    (f.realign id b l).LooksLike (f.correctAlignment id b l).1 := by
  obtain ⟨hheader, hinst⟩ := correctIn_eq id b l f.layout f
  refine ⟨congrArg (fun k : Function => { k with insts := (f.realign id b l).insts }) hheader, fun i hi => ?_, fun i => ?_⟩
  · exact (hinst i).trans (by simp only [inst?_realign, show i ∈ f.layout from hi, if_true])
  · rw [inst?_realign, correctAlignment, hinst, Option.map_map, Option.map_map]
    congr 1
    funext inst
    simp only [Function.comp_apply]
    split_ifs <;> rfl

/-- Where blocks list all instructions, all alignments are corrected. -/
theorem correctAlignment_eq_realign (hall : ∀ {i : InstId} {inst : Inst}, f.inst? i = some inst → i ∈ f.layout) :
    (f.correctAlignment id b l).1 = f.realign id b l := by
  have hlooks := f.looksLike_correctAlignment id b l
  refine eq_of_inst? hlooks.header fun u => ?_
  cases hu : f.inst? u with
  | none => rw [correctAlignment, (correctIn_eq id b l _ f).2, inst?_realign, hu, Option.map_none, Option.map_none]
  | some inst => exact hlooks.listed u (hall hu)

/-- **Alignments and the other rewritings.** Of a function that was read, the correction
gives stores, loads with a source variable and an interval, and allocas of structures the
alignments of their types; nothing else changes, and a second correction finds nothing to
do. It may come before or after the substitution of constants and the simplification of
control flow: blocks list the same instructions in the end, and the texts are the same. -/
theorem correctAlignment_commutes {items : List Source.Item} {m : Module} (hm : Scope.resolve items = .ok m)
    (hf : f ∈ m.functions) (id : FuncId) (b : Bounds) (l : DataLayout) :
    let g := (f.correctAlignment id b l).1
    (∀ pass ∈ [fun h : Function => (h.substituteConstants id b).1, fun h => (h.simplifyControlFlow id b).1],
      (pass g).LooksLike ((pass f).correctAlignment id b l).1 ∧
        ∀ m', ((pass f).correctAlignment id b l).1.text? m' = (pass g).text? m') ∧
    g = f.realign id b l ∧ (g.correctAlignment id b l).2 = .zero := by
  intro g
  have hg : g = f.realign id b l := correctAlignment_eq_realign (mem_layout_of_resolve hm hf)
  refine ⟨fun pass hpass => ?_, hg, ?_⟩
  · have hcomm : pass (f.realign id b l) = (pass f).realign id b l := by
      rcases List.mem_pair.mp hpass with rfl | rfl
      · exact substituteConstants_realign
      · exact simplifyControlFlow_realign
    have hlooks : (pass g).LooksLike ((pass f).correctAlignment id b l).1 := by
      rw [hg, hcomm]
      exact looksLike_correctAlignment id b l _
    exact ⟨hlooks, hlooks.text?_eq⟩
  · refine congrArg Prod.snd (correctIn_of_none (f := g) fun i _ inst hi => ?_)
    rw [hg, inst?_realign] at hi
    obtain ⟨old, -, rfl⟩ := Option.map_eq_some_iff.mp hi
    exact missingAlign?_realigned

/-- A sum is stored in a structure that a load, bound to a variable, reads again. -/
def misaligned : List Source.Item := [
  .define ⟨.ofName "f", .void, [], none, [⟨.ofName "entry", [
    ⟨some (.ofName "s"), .alloca (.struct [.int 8, .int 64]) (some 1), none, ⟨0, 0⟩⟩,
    ⟨some (.ofName "p"), .bitcast (.ptr (.struct [.int 8, .int 64])) (.loc (.ofName "s")) (.ptr (.int 32)), none, ⟨0, 0⟩⟩,
    ⟨some (.ofName "a"), .binary .add (.int 32) (.lit (.int 1)) (.lit (.int 2)), none, ⟨0, 0⟩⟩,
    ⟨none, .store ⟨.int 32, .loc (.ofName "a")⟩ ⟨.ptr (.int 32), .loc (.ofName "p")⟩ (some 1), none, ⟨0, 0⟩⟩,
    ⟨some (.ofName "v"), .load (.int 32) ⟨.ptr (.int 32), .loc (.ofName "p")⟩ none, some ("v", "int"), ⟨0, 0⟩⟩,
    ⟨none, .ret none, none, ⟨0, 0⟩⟩]⟩], ⟨0, 0⟩⟩]

/-- The sum and what is loaded are three. -/
def misalignedBounds : Bounds :=
  ((Bounds.ofSeeds .empty).insert (.inst 0 2) (.singleton 3.0)).insert (.inst 0 4) (.singleton 3.0)

theorem correctAlignment_commutes_misaligned : ∃ m f, Scope.resolve misaligned = .ok m ∧ f ∈ m.functions ∧
    (f.correctAlignment 0 misalignedBounds .default).2 = ⟨1, 1, 1⟩ ∧
    ((f.correctAlignment 0 misalignedBounds .default).1.correctAlignment 0 misalignedBounds .default).2 = .zero ∧
    ((f.correctAlignment 0 misalignedBounds .default).1.substituteConstants 0 misalignedBounds).1.LooksLike
      ((f.substituteConstants 0 misalignedBounds).1.correctAlignment 0 misalignedBounds .default).1 := by
  have hread : ∃ m f, Scope.resolve misaligned = .ok m ∧ f ∈ m.functions ∧
      (f.correctAlignment 0 misalignedBounds .default).2 = ⟨1, 1, 1⟩ := ⟨_, _, rfl, List.mem_singleton_self _, rfl⟩
  obtain ⟨m, f, hm, hf, hstats⟩ := hread
  obtain ⟨hpasses, -, hzero⟩ := correctAlignment_commutes hm hf 0 misalignedBounds .default
  exact ⟨m, f, hm, hf, hstats, hzero, (hpasses _ List.mem_cons_self).1⟩

end Function

end Realign

end RangedIR
