import FormCompiler.Code.Func

namespace FormCompiler

namespace Func

def typeOr (f : Func) (o : Operand) (default : NativeType) : NativeType :=
  (f.operandType? o).getD default

def operandText (f : Func) : Operand → String
  | .const c => c.text
  | .param index =>
    match f.signature.params[index]? with
    | some (name, _) => s!"%{name}"
    | none => s!"%arg{index}"
  | .value id => s!"%{id}"

def labelText (f : Func) (id : Nat) : String :=
  match f.block? id with
  | some b => s!"%{b.label}"
  | none => s!"%bb{id}"

def computationText (f : Func) : Computation → String
  | .int op lhs rhs => s!"{op.intText} i32 {f.operandText lhs}, {f.operandText rhs}"
  | .float op lhs rhs => s!"{op.floatText} double {f.operandText lhs}, {f.operandText rhs}"
  | .icmp test lhs rhs =>
    let type := f.typeOr lhs .i32
    s!"icmp {test.text} {type.text} {f.operandText lhs}, {f.operandText rhs}"
  | .fcmp test lhs rhs => s!"fcmp {test.text} double {f.operandText lhs}, {f.operandText rhs}"
  | .cast op value target =>
    let type := f.typeOr value .void
    s!"{op.text} {type.text} {f.operandText value} to {target.text}"

def argText (f : Func) (o : Operand) : String :=
  let type := f.typeOr o .void
  s!"{type.text} {f.operandText o}"

def edgeText (f : Func) (e : Operand × Nat) : String :=
  s!"[ {f.operandText e.1}, {f.labelText e.2} ]"

def instructionText (f : Func) (i : Instruction) : String :=
  match i.op with
  | .compute c => s!"%{i.dst} = {f.computationText c}"
  | .call callee args returns =>
    let list := ", ".intercalate (args.map f.argText)
    let call := s!"call {returns.text} @{callee}({list})"
    if returns = .void then call else s!"%{i.dst} = {call}"
  | .phi type incoming =>
    let edges := ", ".intercalate (incoming.map f.edgeText)
    s!"%{i.dst} = phi {type.text} {edges}"

def terminatorText (f : Func) : Terminator → String
  | .ret none => "ret void"
  | .ret (some value) =>
    let type := f.typeOr value f.signature.returns
    s!"ret {type.text} {f.operandText value}"
  | .br target => s!"br label {f.labelText target}"
  | .condBr condition whenTrue whenFalse =>
    s!"br i1 {f.operandText condition}, label {f.labelText whenTrue}, label {f.labelText whenFalse}"

def blockText (f : Func) (b : Block) : String :=
  let lines := b.instructions.map fun i => s!"  {f.instructionText i}\n"
  let last := (b.terminator.map f.terminatorText).getD "; no terminator"
  s!"{b.label}:\n{String.join lines}  {last}\n"

def text (f : Func) : String :=
  let params := ", ".intercalate (f.signature.params.map fun p => s!"{p.2.text} %{p.1}")
  let head := s!"{f.signature.returns.text} @{f.signature.name}({params})"
  if f.isDeclaration then s!"declare {head}\n"
  else
    let body := "\n".intercalate (f.blocks.map f.blockText)
    s!"define {head} \x7b\n{body}\x7d\n"

end Func

def CodeUnit.text (u : CodeUnit) : String :=
  let funcs := String.join (u.funcs.values.map fun f => "\n" ++ f.text)
  s!"; unit '{u.name}'\ntarget datalayout = \"{u.layout.text}\"\n{funcs}"

end FormCompiler
