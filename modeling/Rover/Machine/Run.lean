import Rover.Machine.Robot

/-!
# Running

The meaning of program trees. All functions take fuel, which bounds how deep their calls nest, the rounds of a loop
included; with more fuel a computation that ends has the same outcome.
-/

namespace Rover

def Value.asBoolean : Value → Except Cause Bool
  | .boolean b => .ok b
  | _ => .error (.operand .notBoolean)

/-- The types that an arithmetic operator is checked for before the operands are compared with each other. -/
def arithmeticOperand (op : ArithmeticOp) (v : Value) : Except Cause Unit :=
  match op, v with
  | .mod, .integer _ => .ok ()
  | .mod, _ => .error (.operand .notInteger)
  | _, .integer _ => .ok ()
  | _, .float _ => .ok ()
  | _, _ => .error (.operand .notNumerical)

def unaryValue (kind : Kind) (v : Value) : Except Cause Value :=
  match kind with
  | .arithmetic .add => if v.isNumeric then .ok v else .error (.operand .notNumerical)
  | .arithmetic .sub => v.negate.mapError .operand
  | .not => v.not.mapError .operand
  | kind => .error (.unknownUnary kind)

def binaryValue (kind : Kind) (left right : Value) : Except Cause Value :=
  match kind with
  | .relational op => (Value.relational op left right).mapError .operand
  | .arithmetic op => do
    arithmeticOperand op left
    arithmeticOperand op right
    (Value.arithmetic op left right).mapError .operand
  | kind => .error (.unsupportedExpression kind)

/-- The name and the arguments of a call. -/
def callParts : List Node → Except Cause (String × List Node)
  | callee :: arguments :: _ => .ok (callee.text, arguments.children)
  | _ => .error .missingPart

/-- The function of a name in the loaded program. -/
def Eval.function (name : String) : Eval Function := fun m =>
  match m.program with
  | none => .failed (.bare .noFunctions) m
  | some p => match p.get? name with
    | some f => .done f m
    | none => .failed (.bare (.undeclaredFunction name)) m

/-- The values of bound parameters as they are now. -/
def Eval.bindings (bound : List (Param × Cell)) : Eval (List Binding) := fun m =>
  .done (bound.map fun (p, c) => ⟨p.name, m.stack.content c, p.byRef⟩) m

mutual

/-- The value of an expression. The line goes back to what it was. -/
def evaluate : (fuel : Nat) → Node → Eval Value
  | 0, _ => .unfinished
  | fuel + 1, n => Eval.atLine n.line (evaluateNode fuel n)

def evaluateNode : (fuel : Nat) → Node → Eval Value
  | 0, _ => .unfinished
  | fuel + 1, ⟨kind, _, text, value, children⟩ =>
    match kind with
    | .id => Eval.variableValue text
    | .int | .float | .boolean | .string =>
      match value with
      | some v => Eval.pure v
      | none => Eval.fail (.unresolvedLiteral kind)
    | .call => do
      let (name, arguments) ← Eval.ofExcept id (callParts children)
      let v ← invoke fuel name arguments
      if v.isVoid then Eval.fail .voidResult else return v
    | kind =>
      match children with
      | [operand] => do
        let v ← evaluate fuel operand
        Eval.ofExcept id (unaryValue kind v)
      | left :: right :: _ =>
        match kind with
        | .and => do
          let l ← evaluate fuel left
          if ← Eval.ofExcept id l.asBoolean then
            let r ← evaluate fuel right
            return .boolean (← Eval.ofExcept id r.asBoolean)
          else return l
        | .or => do
          let l ← evaluate fuel left
          if ← Eval.ofExcept id l.asBoolean then return l
          else
            let r ← evaluate fuel right
            return .boolean (← Eval.ofExcept id r.asBoolean)
        | kind => do
          let l ← evaluate fuel left
          let r ← evaluate fuel right
          Eval.ofExcept id (binaryValue kind l r)
      | [] => Eval.fail .missingPart

/-- Calls a function by name: a robot operation, or a function of the program. -/
def invoke : (fuel : Nat) → String → List Node → Eval Value
  | 0, _, _ => .unfinished
  | fuel + 1, name, arguments =>
    match Builtin.ofName? name with
    | some b => do
      b.precheck arguments.length
      let values ← evaluateArguments fuel b.arguments arguments
      b.perform fuel values
    | none => do
      let f ← Eval.function name
      invokeFunction fuel f arguments

/-- Evaluates the arguments of a robot operation, each checked before the next is evaluated. -/
def evaluateArguments : (fuel : Nat) → List ArgumentType → List Node → Eval (List Value)
  | 0, _, _ => .unfinished
  | fuel + 1, t :: types, n :: nodes => do
    let v ← evaluate fuel n
    let v ← Eval.ofExcept id (t.check v)
    let rest ← evaluateArguments fuel types nodes
    return v :: rest
  | _ + 1, _, _ => Eval.pure []

/-- Calls a function of the program. -/
def invokeFunction : (fuel : Nat) → Function → List Node → Eval Value
  | 0, _, _ => .unfinished
  | fuel + 1, f, arguments => do
    if f.params.length ≠ arguments.length then Eval.fail (.parameterCount f.name)
    let (callLine, depth) ← Eval.site
    let bound ← bindArguments fuel f.params arguments
    Eval.tellCall depth f.params.length (.called f.name (← Eval.bindings bound) callLine depth (depth == 0))
    Eval.needRecord depth
    let result ← Eval.inFrame f.name callLine do
      Eval.setLine f.line
      Eval.bindAll bound
      let result := (← runBlock fuel f.body.children).getD .void
      let refs ← Eval.bindings (bound.filter (·.1.byRef))
      Eval.emit (.returned f.name result refs (← Eval.currentLine) depth)
      return result
    Eval.setLine callLine
    return result

/-- Makes a cell for every by-value argument, and finds the cell of every by-reference one. -/
def bindArguments : (fuel : Nat) → List Param → List Node → Eval (List (Param × Cell))
  | 0, _, _ => .unfinished
  | fuel + 1, p :: params, n :: nodes => do
    Eval.setLine n.line
    let cell ←
      if p.byRef then
        if n.kind = .id then Eval.variableCell n.text else Eval.fail .referenceArgument
      else do
        let v ← evaluate fuel n
        Eval.alloc v
    let rest ← bindArguments fuel params nodes
    return (p, cell) :: rest
  | _ + 1, _, _ => Eval.pure []

/-- Runs statements until one returns; the answer is what it returns. -/
def runBlock : (fuel : Nat) → List Node → Eval (Option Value)
  | 0, _ => .unfinished
  | _ + 1, [] => Eval.pure none
  | fuel + 1, n :: rest => do
    match ← runStatement fuel n with
    | some v => return some v
    | none => runBlock fuel rest

def runStatement : (fuel : Nat) → Node → Eval (Option Value)
  | 0, _ => .unfinished
  | fuel + 1, ⟨kind, line, _, _, children⟩ => do
    Eval.setLine line
    match kind, children with
    | .assign, target :: expression :: _ => do
      let v ← evaluate fuel expression
      Eval.assign target.text v
      return none
    | .ifElse, condition :: branches => do
      let v ← evaluate fuel condition
      if ← Eval.ofExcept id v.asBoolean then
        match branches with
        | consequent :: _ => runBlock fuel consequent.children
        | [] => Eval.fail .missingPart
      else
        match branches with
        | [_, alternative] => runBlock fuel alternative.children
        | _ => return none
    | .whileDo, [condition, body] => runLoop fuel condition body.children
    | .whileDo, parts => Eval.fail (.loopParts parts.length)
    | .ret, [] => return some .void
    | .ret, expression :: _ => do
      let v ← evaluate fuel expression
      return some v
    | .read, parts => do
      let token ← Eval.nextToken
      let v ← Eval.ofExcept .oversize (Value.ofToken token)
      match parts with
      | target :: _ => do
        Eval.assign target.text v
        return none
      | [] => Eval.fail .missingPart
    | .write, expression :: _ => do
      match expression.kind, expression.value with
      | .string, some v => do
        Eval.emit (.wrote v.text)
        return none
      | _, _ => do
        let v ← evaluate fuel expression
        Eval.emit (.wrote v.text)
        return none
    | .call, parts => do
      let (name, arguments) ← Eval.ofExcept id (callParts parts)
      let _ ← invoke fuel name arguments
      return none
    | .assign, _ => Eval.fail .missingPart
    | .ifElse, _ => Eval.fail .missingPart
    | .write, _ => Eval.fail .missingPart
    | kind, _ => Eval.fail (.unsupportedStatement kind)

/-- Runs a body as long as a condition holds, or until a statement of it returns. -/
def runLoop : (fuel : Nat) → Node → List Node → Eval (Option Value)
  | 0, _, _ => .unfinished
  | fuel + 1, condition, body => do
    let v ← evaluate fuel condition
    if ← Eval.ofExcept id v.asBoolean then
      match ← runBlock fuel body with
      | some v => return some v
      | none => runLoop fuel condition body
    else return none

end

end Rover
