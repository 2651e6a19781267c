/-! The productions of a script's grammar and the roles that nodes play in them. -/
namespace LogProbe

/-- The productions that placement depends on. All others are `other`, and what the parser could
not make sense of is `error`. -/
inductive Kind where
  | program | statementBlock | switchBody | switchCase | switchDefault
  | identifier | propertyIdentifier | shorthandPropertyIdentifier | privatePropertyIdentifier
  | this | super
  | number | string | templateString | regex | trueLiteral | falseLiteral | nullLiteral
  | undefined
  | memberExpression | subscriptExpression | callExpression | newExpression
  | parenthesizedExpression | assignmentExpression | augmentedAssignmentExpression
  | binaryExpression | unaryExpression | updateExpression | ternaryExpression | awaitExpression
  | yieldExpression | sequenceExpression | arrowFunction | functionExpression | generatorFunction
  | classExpression | array | object | pair | computedPropertyName | asExpression
  | satisfiesExpression | nonNullExpression | typeAssertion | jsxElement | jsxSelfClosingElement
  | metaProperty | arguments
  | functionDeclaration | generatorFunctionDeclaration | classDeclaration | methodDefinition
  | formalParameters | requiredParameter | optionalParameter | assignmentPattern
  | objectAssignmentPattern | lexicalDeclaration | variableDeclaration | variableDeclarator
  | typeDeclaration
  | expressionStatement | returnStatement | ifStatement | elseClause | whileStatement
  | doStatement | forStatement | forInStatement | switchStatement | tryStatement | throwStatement
  | breakStatement | continueStatement | emptyStatement | labeledStatement | debuggerStatement
  | withStatement | importStatement | exportStatement
  | comment | error | other
  deriving DecidableEq, Repr

namespace Kind

/-- Node names of the grammars. Expressions that define a function are called `function` in some
of them, and one name stands for both kinds of loop over the members of a value. -/
def grammarNames : List (String × Kind) :=
  [("program", .program), ("statement_block", .statementBlock), ("switch_body", .switchBody),
    ("switch_case", .switchCase), ("switch_default", .switchDefault),
    ("identifier", .identifier), ("property_identifier", .propertyIdentifier),
    ("shorthand_property_identifier", .shorthandPropertyIdentifier),
    ("private_property_identifier", .privatePropertyIdentifier), ("this", .this),
    ("super", .super), ("number", .number), ("string", .string),
    ("template_string", .templateString), ("regex", .regex), ("true", .trueLiteral),
    ("false", .falseLiteral), ("null", .nullLiteral), ("undefined", .undefined),
    ("member_expression", .memberExpression), ("subscript_expression", .subscriptExpression),
    ("call_expression", .callExpression), ("new_expression", .newExpression),
    ("parenthesized_expression", .parenthesizedExpression),
    ("assignment_expression", .assignmentExpression),
    ("augmented_assignment_expression", .augmentedAssignmentExpression),
    ("binary_expression", .binaryExpression), ("unary_expression", .unaryExpression),
    ("update_expression", .updateExpression), ("ternary_expression", .ternaryExpression),
    ("await_expression", .awaitExpression), ("yield_expression", .yieldExpression),
    ("sequence_expression", .sequenceExpression), ("arrow_function", .arrowFunction),
    ("function", .functionExpression), ("function_expression", .functionExpression),
    ("generator_function", .generatorFunction), ("class", .classExpression), ("array", .array),
    ("object", .object), ("pair", .pair), ("computed_property_name", .computedPropertyName),
    ("as_expression", .asExpression), ("satisfies_expression", .satisfiesExpression),
    ("non_null_expression", .nonNullExpression), ("type_assertion", .typeAssertion),
    ("jsx_element", .jsxElement), ("jsx_self_closing_element", .jsxSelfClosingElement),
    ("meta_property", .metaProperty), ("arguments", .arguments),
    ("function_declaration", .functionDeclaration),
    ("generator_function_declaration", .generatorFunctionDeclaration),
    ("class_declaration", .classDeclaration), ("abstract_class_declaration", .classDeclaration),
    ("method_definition", .methodDefinition), ("formal_parameters", .formalParameters),
    ("required_parameter", .requiredParameter), ("optional_parameter", .optionalParameter),
    ("assignment_pattern", .assignmentPattern),
    ("object_assignment_pattern", .objectAssignmentPattern),
    ("lexical_declaration", .lexicalDeclaration), ("variable_declaration", .variableDeclaration),
    ("variable_declarator", .variableDeclarator), ("interface_declaration", .typeDeclaration),
    ("type_alias_declaration", .typeDeclaration), ("enum_declaration", .typeDeclaration),
    ("ambient_declaration", .typeDeclaration), ("function_signature", .typeDeclaration),
    ("import_alias", .typeDeclaration), ("module", .typeDeclaration),
    ("expression_statement", .expressionStatement), ("return_statement", .returnStatement),
    ("if_statement", .ifStatement), ("else_clause", .elseClause),
    ("while_statement", .whileStatement), ("do_statement", .doStatement),
    ("for_statement", .forStatement), ("for_in_statement", .forInStatement),
    ("switch_statement", .switchStatement), ("try_statement", .tryStatement),
    ("throw_statement", .throwStatement), ("break_statement", .breakStatement),
    ("continue_statement", .continueStatement), ("empty_statement", .emptyStatement),
    ("labeled_statement", .labeledStatement), ("debugger_statement", .debuggerStatement),
    ("with_statement", .withStatement), ("import_statement", .importStatement),
    ("export_statement", .exportStatement), ("comment", .comment), ("ERROR", .error)]

def ofGrammar (name : String) : Kind := (grammarNames.lookup name).getD .other

/-- Scopes that hold a list of statements, so that a statement can be added without braces. -/
def isBlockLike : Kind → Bool
  | .program | .statementBlock | .switchCase | .switchDefault => true
  | _ => false

def isLiteral : Kind → Bool
  | .number | .string | .templateString | .regex => true
  | _ => false

/-- Expressions that are no literals. -/
def isCompound : Kind → Bool
  | .identifier | .propertyIdentifier | .shorthandPropertyIdentifier | .privatePropertyIdentifier
  | .this | .super | .trueLiteral | .falseLiteral | .nullLiteral | .undefined | .memberExpression
  | .subscriptExpression | .callExpression | .newExpression | .parenthesizedExpression
  | .assignmentExpression | .augmentedAssignmentExpression | .binaryExpression | .unaryExpression
  | .updateExpression | .ternaryExpression | .awaitExpression | .yieldExpression
  | .sequenceExpression | .arrowFunction | .functionExpression | .generatorFunction
  | .classExpression | .array | .object | .asExpression | .satisfiesExpression
  | .nonNullExpression | .typeAssertion | .jsxElement | .jsxSelfClosingElement
  | .metaProperty => true
  | _ => false

def isExpression (k : Kind) : Bool := k.isLiteral || k.isCompound

def isStatement : Kind → Bool
  | .statementBlock | .functionDeclaration | .generatorFunctionDeclaration | .classDeclaration
  | .lexicalDeclaration | .variableDeclaration | .typeDeclaration | .expressionStatement
  | .returnStatement | .ifStatement | .whileStatement | .doStatement | .forStatement
  | .forInStatement | .switchStatement | .tryStatement | .throwStatement | .breakStatement
  | .continueStatement | .emptyStatement | .labeledStatement | .debuggerStatement
  | .withStatement | .importStatement | .exportStatement => true
  | _ => false

def isFunctionDeclaration : Kind → Bool
  | .functionDeclaration | .generatorFunctionDeclaration => true
  | _ => false

/-- Whatever owns a parameter list. -/
def isFunctionLike : Kind → Bool
  | .functionDeclaration | .generatorFunctionDeclaration | .functionExpression
  | .generatorFunction | .arrowFunction | .methodDefinition => true
  | _ => false

def isDeclarationList : Kind → Bool
  | .lexicalDeclaration | .variableDeclaration => true
  | _ => false

/-- Statements that own the parentheses around their condition. -/
def hasParenthesizedCondition : Kind → Bool
  | .ifStatement | .whileStatement | .doStatement | .switchStatement | .withStatement => true
  | _ => false

end Kind

/-- The role of a node in its parent. -/
inductive Field where
  | name | value | body | condition | consequence | alternative | function | constructor
  | arguments | object | property | index | key | left | right | initializer | increment
  | parameters | parameter | pattern
  deriving DecidableEq, Repr

namespace Field

def grammarNames : List (String × Field) :=
  [("name", .name), ("value", .value), ("body", .body), ("condition", .condition),
    ("consequence", .consequence), ("alternative", .alternative), ("function", .function),
    ("constructor", .constructor), ("arguments", .arguments), ("object", .object),
    ("property", .property), ("index", .index), ("key", .key), ("left", .left),
    ("right", .right), ("initializer", .initializer), ("increment", .increment),
    ("parameters", .parameters), ("parameter", .parameter), ("pattern", .pattern)]

def ofGrammar? (name : String) : Option Field := grammarNames.lookup name

end Field
end LogProbe
