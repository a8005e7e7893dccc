import EsModules.Syntax.Span

/-!
# The tree of a module

A `Node` is a construct that bears on the meaning of names: an identifier, a property of an object,
a declaration, a function, a class, or a statement with a scope of its own.  It is kept as it is
written; what a declaration reaches, and which constructs open a scope, is not said here.  All other
syntax is left out, and code is the list of the constructs in it, in the order of the text.

The statements of a module that import or export are kept apart as `Item`s.
-/

namespace EsModules
namespace Syntax

/-- The kinds of variable declarations. -/
inductive VariableKind where
  | var
  | let
  | const
  | using
  deriving DecidableEq, Repr, Inhabited

/-- The loops that can declare variables in their head. -/
inductive LoopKind where
  /-- `for` with a start, a test and a step. -/
  | counting
  /-- `for` over the keys of a value, with `in`. -/
  | keys
  /-- `for` over the members of a value, with `of`. -/
  | members
  deriving DecidableEq, Repr, Inhabited

/-- A binding pattern.  Its computed keys and default values are code, which is kept beside it. -/
inductive Pattern where
  | name (name : String)
  /-- The values of the properties. -/
  | object (properties : List Pattern)
  /-- The elements that are not left out. -/
  | array (elements : List Pattern)
  /-- The remaining properties or elements. -/
  | rest (target : Pattern)
  /-- A pattern with a default value. -/
  | withDefault (target : Pattern)
  deriving Repr, Inhabited

/-- A construct that bears on the meaning of names. -/
inductive Node where
  /-- An identifier in the place of an expression or of an assignment target. -/
  | reference (span : Span) (name : String)
  /-- A property of an object with its key and its value. -/
  | property (key value : List Node)
  /-- A property of an object literal whose key is at once the identifier that gives its value. -/
  | shorthand (span : Span) (name : String)
  /-- The same in an object that is assigned to, with the default value. -/
  | target (span : Span) (name : String) (value : List Node)
  /-- A variable declaration, with the code in its patterns and the initial values. -/
  | bindings (kind : VariableKind) (patterns : List Pattern) (code : List Node)
  /-- A function, method or arrow function, with the code in its parameters and that of its body;
  `declared` if it is a declaration. -/
  | function (declared : Bool) (span : Span) (name : Option String) (parameters : List Pattern)
      (head body : List Node)
  /-- A class, with its decorators, heritage and members; `declared` if it is a declaration. -/
  | classDef (declared : Bool) (span : Span) (name : Option String) (code : List Node)
  /-- A static initialization block of a class. -/
  | staticBlock (code : List Node)
  /-- A block statement. -/
  | block (span : Span) (code : List Node)
  /-- A loop with its head and its body. -/
  | loop (kind : LoopKind) (span : Span) (code : List Node)
  /-- A switch statement, with the value that is compared and all its cases. -/
  | switch (span : Span) (subject cases : List Node)
  /-- A catch clause, with the code in its parameter and its block. -/
  | handler (span : Span) (parameter : Option Pattern) (code : List Node)
  /-- An import declaration with the names it binds. -/
  | imports (names : List String)
  deriving Repr, Inhabited

mutual

/-- The names that a pattern binds. -/
def Pattern.names : Pattern → List String
  | .name name => [name]
  | .object properties => namesOf properties
  | .array elements => namesOf elements
  | .rest target => target.names
  | .withDefault target => target.names

/-- The names that several patterns bind. -/
def namesOf : List Pattern → List String
  | [] => []
  | pattern :: rest => pattern.names ++ namesOf rest

end

/-- What an import takes from the other module. -/
inductive ImportKind where
  | default
  | named (name : String)
  | whole
  deriving DecidableEq, Repr, Inhabited

/-- The import of a public name. -/
def ImportKind.ofName (name : String) : ImportKind :=
  if name == "default" then .default else .named name

/-- One binding of an import declaration. -/
structure ImportBinding where
  kind : ImportKind
  name : String
  deriving DecidableEq, Repr, Inhabited

/-- One entry of an export list: the name on this side and the public name. -/
structure ExportSpecifier where
  name : String
  exported : String
  deriving DecidableEq, Repr, Inhabited

/-- The declaration that an export statement wraps. -/
inductive Exported where
  /-- A `var`, `let` or `const` declaration with its patterns. -/
  | bindings (patterns : List Pattern)
  | function (name : Option String)
  | classDef (name : Option String)
  deriving Repr, Inhabited

/-- The value of a default export. -/
inductive DefaultValue where
  | function (name : Option String)
  | classDef (name : Option String)
  /-- A bare identifier. -/
  | name (name : String)
  | expression
  /-- An interface, which has no value. -/
  | interface
  deriving DecidableEq, Repr, Inhabited

/-- A statement of a module. -/
inductive Item where
  | imports (span : Span) (source : String) (bindings : List ImportBinding)
  | exportDeclaration (span inner : Span) (exported : Exported) (code : List Node)
  | exportList (span : Span) (specifiers : List ExportSpecifier)
  | exportFrom (span : Span) (source : String) (specifiers : List ExportSpecifier)
  | exportDefault (span inner : Span) (value : DefaultValue) (code : List Node)
  | exportAll (span : Span) (source : String) (exported : Option String)
  /-- Any other statement; `text` when it consists of one string literal. -/
  | statement (span : Span) (text : Bool) (code : List Node)
  deriving Repr, Inhabited

namespace Item

/-- The bytes of the statement. -/
def span : Item → Span
  | imports s _ _ => s
  | exportDeclaration s _ _ _ => s
  | exportList s _ => s
  | exportFrom s _ _ => s
  | exportDefault s _ _ _ => s
  | exportAll s _ _ => s
  | statement s _ _ => s

/-- The code of the statement that may refer to names. -/
def code : Item → List Node
  | imports _ _ bindings => [.imports (bindings.map (·.name))]
  | exportDeclaration _ _ _ code => code
  | exportDefault _ _ (.name _) _ => []
  | exportDefault _ _ _ code => code
  | statement _ _ code => code
  | exportList _ _ => []
  | exportFrom _ _ _ => []
  | exportAll _ _ _ => []

/-- The public names that the statement gives. -/
def publicNames : Item → List String
  | exportDeclaration _ _ (.bindings patterns) _ => namesOf patterns
  | exportDeclaration _ _ (.function name) _ => name.toList
  | exportDeclaration _ _ (.classDef name) _ => name.toList
  | exportList _ specifiers => specifiers.map (·.exported)
  | exportFrom _ _ specifiers => specifiers.map (·.exported)
  | exportDefault _ _ _ _ => ["default"]
  | exportAll _ _ exported => exported.toList
  | _ => []

end Item

/-- A module as read from its text. -/
structure Program where
  /-- The line that names an interpreter. -/
  hashbang : Option Span
  /-- The string literals at the front. -/
  directives : List Span
  items : List Item
  deriving Repr, Inhabited

end Syntax
end EsModules
