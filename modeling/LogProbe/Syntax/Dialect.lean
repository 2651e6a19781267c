import LogProbe.Path

/-! The dialects of scripts and the names under which editors and files announce them. -/
namespace LogProbe

inductive Grammar where
  | javascript
  | typescript
  | tsx
  deriving DecidableEq, Repr

namespace Grammar

def name : Grammar → String
  | javascript => "javascript"
  | typescript => "typescript"
  | tsx => "tsx"

def ofName? (name : String) : Option Grammar := [javascript, typescript, tsx].find? (·.name == name)

theorem ofName?_name (g : Grammar) : ofName? g.name = some g := by
  cases g <;> decide

end Grammar

inductive Dialect where
  | js
  | jsx
  | ts
  | tsx
  deriving DecidableEq, Repr

namespace Dialect

/-- The grammar of plain scripts covers markup too. -/
def grammar : Dialect → Grammar
  | js | jsx => .javascript
  | ts => .typescript
  | tsx => .tsx

def languageId : Dialect → String
  | js => "javascript"
  | jsx => "javascriptreact"
  | ts => "typescript"
  | tsx => "typescriptreact"

def ofLanguageId? (id : String) : Option Dialect := [js, jsx, ts, tsx].find? (·.languageId == id)

theorem ofLanguageId?_languageId (d : Dialect) : ofLanguageId? d.languageId = some d := by
  cases d <;> decide

def ofExtension? (extension : String) : Option Dialect :=
  [("js", js), ("mjs", js), ("cjs", js), ("jsx", jsx), ("ts", ts), ("mts", ts), ("cts", ts),
    ("tsx", tsx)].lookup extension

/-- The dialect of a file, whatever the case of its extension. -/
def ofPath? (path : Bytes) : Option Dialect := do
  let extension ← (← Path.extension? path).text?
  ofExtension? (String.ofList (extension.map Char.toLower))

end Dialect
end LogProbe
