/-
RangedIR.Proofs.Analysis.CallerValues — a call and the values of its caller.

What a call leaves behind is merged into the table of the caller, where it may meet
entries of the caller itself. It does not, as long as no summary that may be taken over
knows values of the caller; it does when a summary made before the caller was entered is
used inside it.
-/
import RangedIR.Proofs.Analysis.Activations

namespace RangedIR

/-! ## 1. Calls -/

theorem Module.exists_of_functionNamed? {m : Module} {name : String} {d : FuncId} (h : m.functionNamed? name = some d) :
    ∃ g, m.functions[d]? = some g := by
  obtain ⟨hlt, -⟩ := List.findIdx?_eq_some_iff_getElem.mp h
  exact ⟨_, List.getElem?_eq_getElem hlt⟩

namespace State

variable {ctx : Context} {depth : Nat} {s : State} {i : InstId} {inst : Inst} {callee : String}
  {args : List (Ty × Operand)} {d : FuncId}

/-- A summary knows nothing of a function that its own cannot come to. -/
theorem summary_ignores_unrelated (hs : s.Reachable ctx depth) (hlead : ¬ ctx.module.LeadsTo d s.frame.id)
    (known : List (Option Bound)) {key : ValueKey} (hkey : key.function? = some s.frame.id) :
    (s.summarize ctx (descent ctx depth) i d known).2.scope.get? key = none := by
  obtain ⟨-, -, hinside⟩ := hs.inside
  obtain ⟨-, -, hscope⟩ := summarize_inside (staysInside_descent depth) hinside.run trivial i known
  exact hscope key fun h => hlead (h _ hkey)

/-- While a function is active, a summary knows nothing of it unless an older one does. -/
theorem summary_ignores_active (hs : s.Reachable ctx depth) (hd : d ≠ s.frame.id)
    (hmemo : ctx.reuse = true → s.run.memo.All fun _ summary =>
      ∀ key, key.function? = some s.frame.id → summary.scope.get? key = none)
    (known : List (Option Bound)) {key : ValueKey} (hkey : key.function? = some s.frame.id) :
    (s.summarize ctx (descent ctx depth) i d known).2.scope.get? key = none := by
  obtain ⟨-, hactive, -⟩ := hs.inside
  have hrun : s.run.Inside ctx (.around ctx.module s.frame.id) := by
    refine ⟨fun g hg => ?_, fun hreuse => (hmemo hreuse).imp fun _ summary hsummary _ key hkey => ?_⟩
    · obtain rfl := List.mem_singleton.mp hg
      exact hactive
    · refine hsummary key ?_
      by_contra hother
      exact hkey fun h hh heq => hother (heq ▸ hh)
  obtain ⟨-, -, hscope⟩ := summarize_inside (staysInside_descent depth) hrun hd i known
  exact hscope key fun h => h _ hkey rfl

end State

/-- A call to a defined function leaves the values of its caller as they are: every entry
of an argument or instruction of the caller that is no memory after the call is the same as
before it. Where the function that is called may come back to the caller and summaries are
used again, this needs that none of them was made with values of the caller. -/
theorem State.call_keeps_caller_values {ctx : Context} {depth : Nat} {s : State} {i : InstId} {inst : Inst}
    {callee : String} {args : List (Ty × Operand)} {d : FuncId} (hs : s.Reachable ctx depth)
    (hcall : s.frame.function.CallsAt ctx.module i inst callee args d)
    (hmemo : ctx.module.LeadsTo d s.frame.id → ctx.reuse = true → s.run.memo.All fun _ summary =>
      ∀ key, key.function? = some s.frame.id → summary.scope.get? key = none) :
    ∀ key, key.function? = some s.frame.id →
      key ∉ (s.transfer ctx (descent ctx depth) i inst).1.frame.memory →
      (s.transfer ctx (descent ctx depth) i inst).1.bounds.get? key = s.bounds.get? key := by
  intro key hkey
  obtain ⟨g, hg⟩ := Module.exists_of_functionNamed? hcall.defined
  rw [transfer_call _ hcall hg]
  cases hrefusal : s.refusal? ctx d g.name with
  | some remark =>
    rw [callDefined_of_refusal hrefusal]
    exact fun _ => rfl
  | none =>
    obtain ⟨-, -, -, -, hkeeps⟩ := callDefined_of_followed hrefusal (descent ctx depth) i args
    have hlocal : key.isGlobal = false := by
      cases key with
      | global g => cases hkey
      | inst g i | arg g i => rfl
    intro hmemory
    obtain ⟨b, hb, hmerged⟩ := hkeeps key hlocal hmemory
    refine hmerged.trans ((Bounds.get?_mergeChild hlocal ?_).trans hb)
    by_cases hlead : ctx.module.LeadsTo d s.frame.id
    · have hd : d ≠ s.frame.id := by
        rintro rfl
        have hidle := isActive_of_refusal? hrefusal
        rw [hs.inside.2.1] at hidle
        cases hidle
      exact summary_ignores_active hs hd (hmemo hlead) _ hkey
    · exact summary_ignores_unrelated hs hlead _ hkey

/-! ## 2. Two functions that call each other -/

/-- Calls one of the two, and then the other with two. -/
def pingPongMain : Function where
  name := "main"
  retTy := .int 32
  params := []
  rangeType := none
  blocks := [⟨"entry", [0, 1, 2]⟩]
  insts := [
    ⟨some "a", .call "ping" [], .int 32, none, 0, false⟩,
    ⟨some "b", .call "pong" [(.int 32, .const (.int 2))], .int 32, none, 0, false⟩,
    ⟨none, .ret (some (.int 32, .inst 1)), .void, none, 0, false⟩]

/-- Calls the other with one. -/
def ping : Function where
  name := "ping"
  retTy := .int 32
  params := []
  rangeType := none
  blocks := [⟨"entry", [0, 1]⟩]
  insts := [
    ⟨some "r", .call "pong" [(.int 32, .const (.int 1))], .int 32, none, 0, false⟩,
    ⟨none, .ret (some (.int 32, .inst 0)), .void, none, 0, false⟩]

/-- Copies its argument, and calls the other. -/
def pong : Function where
  name := "pong"
  retTy := .int 32
  params := [⟨"x", .int 32⟩]
  rangeType := none
  blocks := [⟨"entry", [0, 1, 2]⟩]
  insts := [
    ⟨some "y", .binary .add (.arg 0) (.const (.int 0)), .int 32, none, 0, false⟩,
    ⟨some "r", .call "ping" [], .int 32, none, 0, false⟩,
    ⟨none, .ret (some (.int 32, .inst 0)), .void, none, 0, false⟩]

/-- The module of the two functions. -/
def pingPong : Context := ⟨⟨none, [], [], [], [pingPongMain, ping, pong]⟩, .default, .default, true⟩

namespace State

/-- The start of the analysis. -/
def pingPongStart : State := .ofCall Run.initial.restart 0 pingPongMain (.ofSeeds .empty) none

theorem reachable_pingPongStart : pingPongStart.Reachable pingPong 2 := .root Run.initial (.ofSeeds .empty) rfl

/-- The second, entered from the first. -/
def pongInPing : State := (pingPongStart.atCall 0 [] 1 ping).atCall 0 [(.int 32, .const (.int 1))] 2 pong

theorem reachable_pongInPing : pongInPing.Reachable pingPong 0 := by
  have hping : (pingPongStart.atCall 0 [] 1 ping).Reachable pingPong 1 :=
    .call reachable_pingPongStart (show pingPongMain.CallsAt pingPong.module 0 _ "ping" [] 1 from
      ⟨by decide, rfl, rfl, by decide, by decide⟩) rfl rfl
  exact .call hping (show ping.CallsAt pingPong.module 0 _ "pong" _ 2 from
    ⟨by decide, rfl, rfl, by decide, by decide⟩) rfl rfl

/-- The second, entered after the first has been gone through. -/
def pongAfterPing : State :=
  (pingPongStart.step pingPong (descent pingPong 2) 0).atCall 1 [(.int 32, .const (.int 2))] 2 pong

theorem reachable_pongAfterPing : pongAfterPing.Reachable pingPong 1 := by
  have hmain : (pingPongStart.step pingPong (descent pingPong 2) 0).Reachable pingPong 2 :=
    reachable_pingPongStart.step (by decide)
  have hcall : (pingPongStart.step pingPong (descent pingPong 2) 0).frame.function.CallsAt pingPong.module 1
      ⟨some "b", .call "pong" [(.int 32, .const (.int 2))], .int 32, none, 0, false⟩ "pong"
      [(.int 32, .const (.int 2))] 2 := by
    rw [(reachable_pingPongStart.frame_step (by decide)).2]
    exact ⟨by decide, rfl, rfl, by decide, by decide⟩
  exact hmain.call hcall rfl (Option.isNone_iff_eq_none.mp (by decide +kernel))

theorem pong_callsAt {depth : Nat} {s : State} (hs : s.Reachable pingPong depth) (hf : s.frame.function = pong) :
    (s.step pingPong (descent pingPong depth) 0).frame.function.CallsAt pingPong.module 1
      ⟨some "r", .call "ping" [], .int 32, none, 0, false⟩ "ping" [] 1 := by
  rw [(hs.frame_step (by rw [hf]; decide)).2, hf]
  exact ⟨by decide, rfl, rfl, by decide, by decide⟩

/-- The two call each other; entered from the first, the second keeps its copy through the
call back. -/
theorem call_keeps_caller_values_recursive :
    pingPong.module.LeadsTo 1 2 ∧
    (pongInPing.step pingPong (descent pingPong 0) 0).bounds.get? (.inst 2 0) = some ⟨1.0, 1.0⟩ ∧
    ((pongInPing.step pingPong (descent pingPong 0) 0).transfer pingPong (descent pingPong 0) 1
      ⟨some "r", .call "ping" [], .int 32, none, 0, false⟩).1.bounds.get? (.inst 2 0) = some ⟨1.0, 1.0⟩ := by
  have hstep := reachable_pongInPing.step (show 0 ∈ pong.layout by decide)
  have hcopy : (pongInPing.step pingPong (descent pingPong 0) 0).bounds.get? (.inst 2 0) = some ⟨1.0, 1.0⟩ := by
    decide
  have hnew : (pongInPing.step pingPong (descent pingPong 0) 0).run.memo.entries = [] :=
    List.isEmpty_iff.mp (by decide)
  have hkept := call_keeps_caller_values hstep (pong_callsAt reachable_pongInPing rfl)
    (fun _ _ key summary h => by rw [hnew] at h; cases h) (.inst 2 0)
    (congrArg some (reachable_pongInPing.frame_step (by decide)).1.symm) (by decide)
  exact ⟨.single ⟨ping, 0, _, "pong", _, rfl, by decide, rfl, rfl, by decide, by decide⟩, hcopy, hkept.trans hcopy⟩

/-- Entered after the first has been gone through, the second takes the call back from the
summary of the first, which knows the second with one: the copy of two covers one too. -/
theorem reused_summary_changes_caller :
    (pongAfterPing.step pingPong (descent pingPong 1) 0).Reachable pingPong 1 ∧
    (pongAfterPing.step pingPong (descent pingPong 1) 0).frame.function.CallsAt pingPong.module 1
      ⟨some "r", .call "ping" [], .int 32, none, 0, false⟩ "ping" [] 1 ∧
    (pongAfterPing.step pingPong (descent pingPong 1) 0).bounds.get? (.inst 2 0) = some ⟨2.0, 2.0⟩ ∧
    ((pongAfterPing.step pingPong (descent pingPong 1) 0).transfer pingPong (descent pingPong 1) 1
      ⟨some "r", .call "ping" [], .int 32, none, 0, false⟩).1.bounds.get? (.inst 2 0) = some ⟨1.0, 2.0⟩ ∧
    .inst 2 0 ∉ ((pongAfterPing.step pingPong (descent pingPong 1) 0).transfer pingPong (descent pingPong 1) 1
      ⟨some "r", .call "ping" [], .int 32, none, 0, false⟩).1.frame.memory := by
  refine ⟨?_, pong_callsAt reachable_pongAfterPing rfl, by decide +kernel, by decide +kernel, by decide +kernel⟩
  exact reachable_pongAfterPing.step (by decide)

end State

end RangedIR
