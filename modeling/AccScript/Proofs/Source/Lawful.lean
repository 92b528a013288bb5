import AccScript.Proofs.Source.Nodes

/-!
# Jumps and the statements around them

Two properties of programs that speak about where a `break` or a `continue` may lead.  In a
*lawful* program every jump has a statement around it that accepts the jump, as a parser checks.
In a program with *contained* finalizers no jump leaves the `finally` block in which it stands;
nothing is asked of jumps elsewhere.

Both are instances of one recursion, `Statement.Obeys`, which carries along what jumps can reach.
They differ in where it starts and in what happens to the context at a `finally` block.
-/

namespace AccScript

/-- What jumps can reach from inside of some statements of a function. -/
structure JumpContext where
  /-- Whether any jump is allowed. -/
  isUnchecked : Bool := false
  /-- The labels that `break` can name. -/
  labels : List String := []
  /-- The labels that `continue` can name. -/
  loopLabels : List String := []
  /-- Whether a `break` without a label has a target. -/
  inBreakable : Bool := false
  /-- Whether a `continue` without a label has a target. -/
  inLoop : Bool := false

namespace JumpContext

/-- Inside of a loop that has the given labels. -/
def loop (ctx : JumpContext) (names : List String) : JumpContext :=
  { ctx with loopLabels := names ++ ctx.loopLabels, inBreakable := true, inLoop := true }

def switch (ctx : JumpContext) : JumpContext :=
  { ctx with inBreakable := true }

def label (ctx : JumpContext) (name : String) : JumpContext :=
  { ctx with labels := name :: ctx.labels }

def CanBreak (ctx : JumpContext) (name : Option String) : Prop :=
  ctx.isUnchecked = true ∨
    match name with
    | some name => name ∈ ctx.labels
    | none => ctx.inBreakable = true

def CanContinue (ctx : JumpContext) (name : Option String) : Prop :=
  ctx.isUnchecked = true ∨
    match name with
    | some name => name ∈ ctx.loopLabels
    | none => ctx.inLoop = true

instance (ctx : JumpContext) (name : Option String) : Decidable (ctx.CanBreak name) :=
  match name with
  | some name => inferInstanceAs (Decidable (_ ∨ name ∈ ctx.labels))
  | none => inferInstanceAs (Decidable (_ ∨ ctx.inBreakable = true))

instance (ctx : JumpContext) (name : Option String) : Decidable (ctx.CanContinue name) :=
  match name with
  | some name => inferInstanceAs (Decidable (_ ∨ name ∈ ctx.loopLabels))
  | none => inferInstanceAs (Decidable (_ ∨ ctx.inLoop = true))

end JumpContext

/-- What is asked of the statements of a program. -/
structure JumpRules where
  /-- What jumps can reach from a finalizer in a context. -/
  finalizer : JumpContext → JumpContext
  /-- What is asked of the class of a declaration. -/
  declares : ClassNode → Prop

/-- Every jump has a target, and the class of a declaration is not marked as an expression. -/
def JumpRules.lawful : JumpRules where
  finalizer ctx := ctx
  declares c := c.isExpression = false

/-- No jump leaves a finalizer. -/
def JumpRules.contained : JumpRules where
  finalizer _ := {}
  declares _ := True

section

variable (rules : JumpRules)

mutual

/-- The jumps of a statement are allowed; `names` are the labels right in front of it. -/
def Statement.Obeys (ctx : JumpContext) (names : List String) : Statement → Prop
  | ⟨_, _, kind⟩ => kind.Obeys ctx names

def StatementKind.Obeys (ctx : JumpContext) (names : List String) : StatementKind → Prop
  | .block block => block.Obeys ctx
  | .ifElse _ consequent alternate =>
      consequent.Obeys ctx [] ∧ Statement.ObeysOption ctx alternate
  | .while _ body => body.Obeys (ctx.loop names) []
  | .doWhile body _ => body.Obeys (ctx.loop names) []
  | .for _ _ _ body => body.Obeys (ctx.loop names) []
  | .forIn _ _ body => body.Obeys (ctx.loop names) []
  | .forOf _ _ body => body.Obeys (ctx.loop names) []
  | .continue name => ctx.CanContinue name
  | .break name => ctx.CanBreak name
  | .labelled name body => body.Obeys (ctx.label name) (names ++ [name])
  | .tryCatch block handler finalizer =>
      block.Obeys ctx ∧ CatchClause.ObeysOption ctx handler ∧
        Block.ObeysOption (rules.finalizer ctx) finalizer
  | .switch _ cases => SwitchCase.ObeysList ctx.switch cases
  | .classDecl c _ => rules.declares c
  | _ => True

def Statement.ObeysOption (ctx : JumpContext) : Option Statement → Prop
  | none => True
  | some statement => statement.Obeys ctx []

def Statement.ObeysList (ctx : JumpContext) : List Statement → Prop
  | [] => True
  | statement :: rest => statement.Obeys ctx [] ∧ Statement.ObeysList ctx rest

def Block.Obeys (ctx : JumpContext) : Block → Prop
  | ⟨_, statements⟩ => Statement.ObeysList ctx statements

def Block.ObeysOption (ctx : JumpContext) : Option Block → Prop
  | none => True
  | some block => block.Obeys ctx

def CatchClause.ObeysOption (ctx : JumpContext) : Option CatchClause → Prop
  | none => True
  | some clause => clause.Obeys ctx

def CatchClause.Obeys (ctx : JumpContext) : CatchClause → Prop
  | ⟨_, _, _, body⟩ => body.Obeys ctx

def SwitchCase.ObeysList (ctx : JumpContext) : List SwitchCase → Prop
  | [] => True
  | ⟨_, body⟩ :: rest => Statement.ObeysList ctx body ∧ SwitchCase.ObeysList ctx rest

end

def FunctionBody.Obeys (ctx : JumpContext) : FunctionBody → Prop
  | .block b => b.Obeys rules ctx
  | .expression _ => True

/-! ### The rules can be checked -/

variable [DecidablePred rules.declares]

mutual

def Statement.decideObeys (ctx : JumpContext) (names : List String) :
    (statement : Statement) → Decidable (statement.Obeys rules ctx names)
  | ⟨_, _, kind⟩ => kind.decideObeys ctx names

def StatementKind.decideObeys (ctx : JumpContext) (names : List String) :
    (kind : StatementKind) → Decidable (kind.Obeys rules ctx names)
  | .block block => block.decideObeys ctx
  | .ifElse _ consequent alternate =>
      @instDecidableAnd _ _ (consequent.decideObeys ctx [])
        (Statement.decideObeysOption ctx alternate)
  | .while _ body => body.decideObeys (ctx.loop names) []
  | .doWhile body _ => body.decideObeys (ctx.loop names) []
  | .for _ _ _ body => body.decideObeys (ctx.loop names) []
  | .forIn _ _ body => body.decideObeys (ctx.loop names) []
  | .forOf _ _ body => body.decideObeys (ctx.loop names) []
  | .continue name => inferInstanceAs (Decidable (ctx.CanContinue name))
  | .break name => inferInstanceAs (Decidable (ctx.CanBreak name))
  | .labelled name body => body.decideObeys (ctx.label name) (names ++ [name])
  | .tryCatch block handler finalizer =>
      @instDecidableAnd _ _ (block.decideObeys ctx)
        (@instDecidableAnd _ _ (CatchClause.decideObeysOption ctx handler)
          (Block.decideObeysOption (rules.finalizer ctx) finalizer))
  | .switch _ cases => SwitchCase.decideObeysList ctx.switch cases
  | .classDecl c _ => inferInstanceAs (Decidable (rules.declares c))
  | .empty | .debugger | .variableDecl _ _ | .expression _ | .return _ | .throw _
  | .functionDecl _ _ | .importDecl _ | .exportDecl _ | .exportDefault _ => .isTrue trivial

def Statement.decideObeysOption (ctx : JumpContext) :
    (statement : Option Statement) → Decidable (Statement.ObeysOption rules ctx statement)
  | none => .isTrue trivial
  | some statement => statement.decideObeys ctx []

def Statement.decideObeysList (ctx : JumpContext) :
    (statements : List Statement) → Decidable (Statement.ObeysList rules ctx statements)
  | [] => .isTrue trivial
  | statement :: rest =>
      @instDecidableAnd _ _ (statement.decideObeys ctx []) (Statement.decideObeysList ctx rest)

def Block.decideObeys (ctx : JumpContext) : (block : Block) → Decidable (block.Obeys rules ctx)
  | ⟨_, statements⟩ => Statement.decideObeysList ctx statements

def Block.decideObeysOption (ctx : JumpContext) :
    (block : Option Block) → Decidable (Block.ObeysOption rules ctx block)
  | none => .isTrue trivial
  | some block => block.decideObeys ctx

def CatchClause.decideObeysOption (ctx : JumpContext) :
    (clause : Option CatchClause) → Decidable (CatchClause.ObeysOption rules ctx clause)
  | none => .isTrue trivial
  | some clause => clause.decideObeys ctx

def CatchClause.decideObeys (ctx : JumpContext) :
    (clause : CatchClause) → Decidable (clause.Obeys rules ctx)
  | ⟨_, _, _, body⟩ => body.decideObeys ctx

def SwitchCase.decideObeysList (ctx : JumpContext) :
    (cases : List SwitchCase) → Decidable (SwitchCase.ObeysList rules ctx cases)
  | [] => .isTrue trivial
  | ⟨_, body⟩ :: rest =>
      @instDecidableAnd _ _ (Statement.decideObeysList ctx body)
        (SwitchCase.decideObeysList ctx rest)

end

instance (ctx : JumpContext) (statements : List Statement) :
    Decidable (Statement.ObeysList rules ctx statements) :=
  Statement.decideObeysList rules ctx statements

instance (ctx : JumpContext) : (body : FunctionBody) → Decidable (body.Obeys rules ctx)
  | .block b => b.decideObeys rules ctx
  | .expression _ => .isTrue trivial

end

instance : DecidablePred JumpRules.lawful.declares :=
  fun c => inferInstanceAs (Decidable (c.isExpression = false))

instance : DecidablePred JumpRules.contained.declares :=
  fun _ => .isTrue trivial

/-- A property of all functions of a program can be checked. -/
instance (p : Program) (P : FunctionNode → Prop) [DecidablePred P] :
    Decidable (∀ node ∈ p.nodes, ∀ f, node.function = some f → P f) :=
  decidable_of_iff (∀ f ∈ p.nodes.filterMap SourceNode.function, P f) <| by
    simp only [List.mem_filterMap, forall_exists_index, and_imp]
    exact ⟨fun h node mem f same => h f node mem same, fun h f node mem same => h node mem f same⟩

/-! ## Lawful programs -/

/-- An arrow function is not marked as an expression that sees itself, and its jumps have
targets. -/
structure FunctionNode.Lawful (f : FunctionNode) : Prop where
  arrow : f.kind.isArrow = true → f.isExpression = false
  body : f.body.Obeys .lawful {}

/-- The statements and all functions of a program are lawful. -/
structure Program.Lawful (p : Program) : Prop where
  statements : Statement.ObeysList .lawful {} p.statements
  functions : ∀ node ∈ p.nodes, ∀ f, node.function = some f → f.Lawful

instance (f : FunctionNode) : Decidable f.Lawful :=
  decidable_of_iff ((f.kind.isArrow = true → f.isExpression = false) ∧ f.body.Obeys .lawful {})
    ⟨fun h => ⟨h.1, h.2⟩, fun h => ⟨h.arrow, h.body⟩⟩

instance (p : Program) : Decidable p.Lawful :=
  decidable_of_iff (Statement.ObeysList .lawful {} p.statements ∧
      ∀ node ∈ p.nodes, ∀ f, node.function = some f → f.Lawful)
    ⟨fun h => ⟨h.1, h.2⟩, fun h => ⟨h.statements, h.functions⟩⟩

/-! ## Contained finalizers -/

def FunctionNode.ContainsJumps (f : FunctionNode) : Prop :=
  f.body.Obeys .contained { isUnchecked := true }

/-- No jump leaves a finalizer of the program. -/
structure Program.ContainsJumps (p : Program) : Prop where
  statements : Statement.ObeysList .contained { isUnchecked := true } p.statements
  functions : ∀ node ∈ p.nodes, ∀ f, node.function = some f → f.ContainsJumps

instance (f : FunctionNode) : Decidable f.ContainsJumps :=
  inferInstanceAs (Decidable (f.body.Obeys .contained { isUnchecked := true }))

instance (p : Program) : Decidable p.ContainsJumps :=
  decidable_of_iff (Statement.ObeysList .contained { isUnchecked := true } p.statements ∧
      ∀ node ∈ p.nodes, ∀ f, node.function = some f → f.ContainsJumps)
    ⟨fun h => ⟨h.1, h.2⟩, fun h => ⟨h.statements, h.functions⟩⟩

/-! ## An example -/

/-- A function that makes closures over the variable of a loop, and leaves it through a finalizer. -/
def Program.collector : Program :=
  let ident (name : String) : Expr := ⟨⟨1, 0⟩, .identifier name⟩
  let assign (name : String) (value : Expr) : Statement → Statement := fun s =>
    { s with kind := .expression ⟨⟨1, 0⟩, .assignment none (.simple (ident name)) value⟩ }
  let function (id : NodeId) (name : Option Identifier) (kind : FunctionKind) (isExpression : Bool)
      (parameters : List Parameter) (body : FunctionBody) : FunctionNode :=
    ⟨id, ⟨1, 0⟩, name, kind, isExpression, parameters, body, false⟩
  let statement (id : NodeId) (kind : StatementKind) : Statement := ⟨id, ⟨1, 0⟩, kind⟩
  let arrow : Expr := ⟨⟨1, 0⟩, .function (function 1 none .arrow false [] (.expression (ident "i")))⟩
  let protectedBlock : Block := ⟨2, [
    statement 3 (.ifElse (ident "limit") (statement 4 (.break none)) none),
    assign "made" arrow (statement 5 .empty),
    statement 6 (.throw (ident "made"))]⟩
  let finalizer : Block := ⟨7, [assign "made" (ident "i") (statement 8 .empty)]⟩
  let body : Statement := statement 9 (.block ⟨10, [
    statement 11 (.tryCatch protectedBlock none (some finalizer))]⟩)
  let loop : Statement := statement 12 (.for
    (some (.declaration ⟨.let, [⟨⟨1, 0⟩, .identifier ⟨"i", 13⟩, none⟩]⟩)) (some (ident "i")) none body)
  let getter : ClassMember := ⟨14, ⟨1, 0⟩, .identifier "get", false, .method
    (function 15 none .method false [] (.block ⟨16, [statement 17 (.return (some (ident "made")))]⟩))⟩
  let box : Statement := statement 18 (.classDecl
    ⟨19, ⟨1, 0⟩, some ⟨"Box", 20⟩, none, false, [getter]⟩ .none)
  let collect := function 21 (some ⟨"collect", 22⟩) .normal false
    [⟨⟨1, 0⟩, .identifier ⟨"limit", 23⟩, none, false⟩] (.block ⟨24, [
      statement 25 (.variableDecl ⟨.let, [⟨⟨1, 0⟩, .identifier ⟨"made", 26⟩, none⟩]⟩ false),
      loop, box, statement 27 (.return (some (ident "Box")))]⟩)
  { id := 0, position := ⟨1, 0⟩, statements := [statement 28 (.functionDecl collect .none)]
    isStrict := false, nextNodeId := 29, derivedFrom := [] }

end AccScript
