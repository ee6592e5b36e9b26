/-
RangedIR.Source.Grammar — the grammar of module text.

One parser per construct, in the order in which alternatives are tried.
`readModule` reads a whole source: it answers the items, or the strays of the
source and the offset at which the tokens stop making sense.
-/
import RangedIR.Source.Lexer
import RangedIR.Source.Parser
import RangedIR.Source.Tree

namespace RangedIR.Source

open RangedIR.Source.Parser

-- powers of the core library
attribute [local instance (high)] instPowNat

/-! ## 1. Words -/

/-- A local name. -/
def localName : Parser Ident := do
  let (name, span) ← spanned (token fun | .loc n => some n | _ => none)
  pure ⟨name, span⟩

/-- A global name. -/
def globalName : Parser Ident := do
  let (name, span) ← spanned (token fun | .glob n => some n | _ => none)
  pure ⟨name, span⟩

/-- A plain word that passes a check. -/
def wordOf {α : Type} (accept : String → Option α) : Parser α :=
  token fun | .word w => accept w | _ => none

def integer : Parser Int := token fun | .int v => some v | _ => none

def stringLiteral : Parser String := token fun | .str s => some s | _ => none

def literal : Parser Literal := token fun
  | .int v => some (.int v)
  | .float v => some (.float v)
  | .word "true" => some (.bool true)
  | .word "false" => some (.bool false)
  | _ => none

/-! ## 2. Types -/

/-- The type a word names. Integer types have one to 64 bits. -/
def scalarType? (w : String) : Option TypeExpr :=
  if w == "void" then some .void
  else if w == "float" then some .float
  else if w == "double" then some .double
  else
    match w.toList with
    | 'i' :: digits =>
      match Text.decimal? digits with
      | some bits => if 1 ≤ bits && bits ≤ 64 then some (.int bits) else none
      | none => none
    | _ => none

/-- A type followed by any number of stars. -/
def starred (base : Parser TypeExpr) : Parser TypeExpr := do
  let t ← base
  let stars ← many (expect .star)
  pure (stars.foldl (fun t _ => .ptr t) t)

/-- An array type behind its opening bracket. A negative length counts as zero. -/
def arrayType (element : Parser TypeExpr) : Parser TypeExpr :=
  between .lbracket .rbracket do
    let n ← integer
    keyword "x"
    let t ← element
    pure (.array n.toNat t)

/-- A type nested at most `depth` deep. -/
def typeUpTo : Nat → Parser TypeExpr
  | 0 => fail
  | depth + 1 =>
    starred <| choice [
      wordOf scalarType?,
      do pure (.named (← localName)),
      arrayType (typeUpTo depth),
      do pure (.struct (← between .lbrace .rbrace (commaList (typeUpTo depth))))]

/-- A type. Every level of nesting takes a token. -/
def type : Parser TypeExpr := fun c => typeUpTo (c.rest.length + 1) c

/-! ## 3. Operands -/

def value : Parser ValueExpr :=
  choice [
    do pure (.loc (← localName)),
    do pure (.glob (← globalName)),
    do pure (.lit (← literal)),
    do keyword "undef"; pure .undef]

def typed : Parser Typed := do
  let ty ← type
  let v ← value
  pure ⟨ty, v⟩

/-- An alignment clause. A negative number counts as zero. -/
def alignment : Parser (Option Nat) :=
  optional do
    expect .comma
    keyword "align"
    let a ← integer
    pure (a.toNat % 2 ^ (32 : Nat))

/-- Two values with a comma between them. -/
def valuePair : Parser (ValueExpr × ValueExpr) := do
  let lhs ← value
  expect .comma
  let rhs ← value
  pure (lhs, rhs)

/-- Arguments in parentheses. -/
def parenthesized {α : Type} (p : Parser α) : Parser (List α) :=
  between .lparen .rparen (commaList p)

def labelRef : Parser Ident := do
  keyword "label"
  localName

/-! ## 4. Instructions with a result -/

def binaryInst : Parser InstExpr := do
  let op ← wordOf BinaryOp.ofName?
  let ty ← type
  let (lhs, rhs) ← valuePair
  pure (.binary op ty lhs rhs)

def fnegInst : Parser InstExpr := do
  keyword "fneg"
  let ty ← type
  let v ← value
  pure (.fneg ty v)

def castInst : Parser InstExpr := do
  let op ← wordOf CastOp.ofName?
  let src ← type
  let v ← value
  keyword "to"
  let dst ← type
  pure (.cast op src v dst)

def bitcastInst : Parser InstExpr := do
  keyword "bitcast"
  let src ← type
  let v ← value
  keyword "to"
  let dst ← type
  pure (.bitcast src v dst)

def allocaInst : Parser InstExpr := do
  keyword "alloca"
  let ty ← type
  let align ← alignment
  pure (.alloca ty align)

def loadInst : Parser InstExpr := do
  keyword "load"
  let ty ← type
  expect .comma
  let ptr ← typed
  let align ← alignment
  pure (.load ty ptr align)

def elementPtrInst : Parser InstExpr := do
  keyword "getelementptr"
  let inbounds ← optional (keyword "inbounds")
  let source ← type
  expect .comma
  let base ← typed
  let indices ← many do
    expect .comma
    typed
  pure (.elementPtr inbounds.isSome source base indices)

def callInst : Parser InstExpr := do
  keyword "call"
  let ret ← type
  let callee ← globalName
  let args ← parenthesized typed
  pure (.call ret callee args)

def icmpInst : Parser InstExpr := do
  keyword "icmp"
  let pred ← wordOf IntPredicate.ofName?
  let ty ← type
  let (lhs, rhs) ← valuePair
  pure (.icmp pred ty lhs rhs)

def fcmpInst : Parser InstExpr := do
  keyword "fcmp"
  let pred ← wordOf FloatPredicate.ofName?
  let ty ← type
  let (lhs, rhs) ← valuePair
  pure (.fcmp pred ty lhs rhs)

/-- A value of a phi and the block it comes from. -/
def incoming : Parser (ValueExpr × Ident) :=
  between .lbracket .rbracket do
    let v ← value
    expect .comma
    let l ← localName
    pure (v, l)

def phiInst : Parser InstExpr := do
  keyword "phi"
  let ty ← type
  let pairs ← sepBy1 incoming (expect .comma)
  pure (.phi ty pairs)

/-! ## 5. Instructions without a result -/

def storeInst : Parser InstExpr := do
  keyword "store"
  let v ← typed
  expect .comma
  let ptr ← typed
  let align ← alignment
  pure (.store v ptr align)

def branchInst : Parser InstExpr := do
  keyword "br"
  choice [
    do pure (.br (← labelRef)),
    do
      keyword "i1"
      let cond ← value
      expect .comma
      let thenLabel ← labelRef
      expect .comma
      let elseLabel ← labelRef
      pure (.condBr cond thenLabel elseLabel)]

def retInst : Parser InstExpr := do
  keyword "ret"
  choice [
    do keyword "void"; pure (.ret none),
    do pure (.ret (some (← typed)))]

/-! ## 6. Blocks -/

/-- The source variable an instruction is bound to. -/
def debugBinding : Parser (Option (String × String)) :=
  optional do
    expect .metaDbg
    between .lparen .rparen do
      let name ← stringLiteral
      expect .comma
      let ty ← stringLiteral
      pure (name, ty)

def valuedInst : Parser (Option Ident × InstExpr) := do
  let name ← localName
  expect .equals
  let kind ← choice [
    binaryInst, fnegInst, castInst, bitcastInst, allocaInst, loadInst, elementPtrInst, callInst,
    icmpInst, fcmpInst, phiInst]
  pure (some name, kind)

def unvaluedInst : Parser (Option Ident × InstExpr) := do
  let kind ← choice [storeInst, branchInst, retInst, callInst]
  pure (none, kind)

def instruction : Parser InstDef := do
  let (((result, kind), dbg), span) ← spanned do
    let inst ← orElse valuedInst unvaluedInst
    let dbg ← debugBinding
    pure (inst, dbg)
  pure ⟨result, kind, dbg, span⟩

/-- A label and its colon. -/
def blockLabel : Parser Ident := do
  let (name, span) ← spanned do
    let w ← wordOf some
    expect .colon
    pure w
  pure ⟨name, span⟩

def block : Parser BlockDef := do
  let label ← blockLabel
  let insts ← many instruction
  pure ⟨label, insts⟩

/-! ## 7. Items -/

def dataLayoutItem : Parser Item := do
  keyword "target"
  keyword "datalayout"
  expect .equals
  let s ← stringLiteral
  pure (.dataLayout s)

def typeDefItem : Parser Item := do
  let name ← localName
  expect .equals
  keyword "type"
  let fields ← between .lbrace .rbrace (commaList type)
  pure (.typeDef ⟨name, fields⟩)

def globalInit : Parser GlobalInitExpr :=
  choice [
    do pure (.scalar (← literal)),
    do pure (.array (← between .lbracket .rbracket (commaList literal)))]

def globalDefItem : Parser Item := do
  let name ← globalName
  expect .equals
  let isConstant ← choice [
    do keyword "global"; pure false,
    do keyword "constant"; pure true]
  let ty ← type
  let init ← globalInit
  pure (.globalDef ⟨name, isConstant, ty, init⟩)

def declareItem : Parser Item := do
  keyword "declare"
  let ret ← type
  let name ← globalName
  let params ← parenthesized do
    let ty ← type
    let _ ← optional localName
    pure ty
  pure (.declare ⟨name, ret, params⟩)

def defineItem : Parser Item := do
  let (f, span) ← spanned do
    keyword "define"
    let ret ← type
    let name ← globalName
    let params ← parenthesized do
      let ty ← type
      let n ← localName
      pure (ty, n)
    let range ← optional do
      expect .metaRange
      between .lparen .rparen stringLiteral
    let blocks ← between .lbrace .rbrace (many block)
    pure (fun span => (⟨name, ret, params, range, blocks, span⟩ : FunctionDef))
  pure (.define (f span))

def item : Parser Item :=
  choice [dataLayoutItem, typeDefItem, globalDefItem, declareItem, defineItem]

/-- The end of the source. -/
def endOfSource : Parser Unit := fun c =>
  match c.rest with
  | [] => ⟨0, some ((), c)⟩
  | _ => ⟨c.position, none⟩

def items : Parser (List Item) := do
  let all ← many item
  endOfSource
  pure all

/-! ## 8. Sources -/

/-- Why a source is no module: its strays, and the offset of the token at which
reading stopped, if the tokens cannot be read. -/
structure SyntaxError where
  strays : List Stray
  failure : Option Nat
  deriving Repr, Inhabited

/-- The number of complaints about a source. -/
def SyntaxError.count (e : SyntaxError) : Nat :=
  e.strays.length + if e.failure.isSome then 1 else 0

/-- Byte offset of the token with a given number, the end of the source behind
the last. -/
def offsetOf (lexemes : List Lexeme) (sourceEnd position : Nat) : Nat :=
  match lexemes[position]? with
  | some l => l.span.start
  | none => sourceEnd

/-- Read a whole source. -/
def readModule (source : String) : Except SyntaxError (List Item) :=
  let lexed := lex source
  let step := items ⟨lexed.lexemes, 0, 0⟩
  match step.outcome, lexed.strays with
  | some (all, _), [] => .ok all
  | some _, strays => .error ⟨strays, none⟩
  | none, strays =>
    .error ⟨strays, some (offsetOf lexed.lexemes source.utf8ByteSize step.furthest)⟩

end RangedIR.Source
