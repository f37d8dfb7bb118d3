import FederatedJoin.OrdSet.Merge

/-!
# RDF terms and triple patterns

The terms that occur in a query's triple patterns, the text they are written with, and the
variables of a pattern.

## Main definitions

* `Literal`, `Term`, `Predicate`, `Pattern`.
* `Pattern.vars` — the variables from subject to object, with repetitions.
* `Literal.text`, `Term.text`, `Pattern.text` — the written forms.
-/

namespace FederatedJoin

/-- The name of a variable, without its question mark. -/
abbrev Variable := String

/-- A set of variables, in the order of their code points. -/
abbrev VariableSet := OrdSet Variable

/-- The datatype of every literal that is written without one. -/
def xsdString : String := "http://www.w3.org/2001/XMLSchema#string"

/-- What a literal carries beside its value. The datatype `xsdString` is the same as none. -/
inductive Annotation where
  | plain
  | language (tag : String)
  | datatype (iri : String) (ne_xsdString : iri ≠ xsdString)
  deriving DecidableEq

namespace Annotation

/-- The annotation that a datatype stands for. -/
def ofDatatype (iri : String) : Annotation :=
  if h : iri = xsdString then .plain else .datatype iri h

/-- A number for each form of annotation, and the text it holds. -/
def key : Annotation → Nat × String
  | plain => (0, "")
  | language tag => (1, tag)
  | datatype iri _ => (2, iri)

instance : Hashable Annotation := ⟨fun a => hash a.key⟩

end Annotation

/-- An RDF literal. -/
structure Literal where
  value : String
  annotation : Annotation
  deriving DecidableEq, Hashable

/-- The subject or the object of a pattern. -/
inductive Term where
  | iri (value : String)
  | blank (label : String)
  | literal (value : Literal)
  | var (name : Variable)
  deriving DecidableEq, Hashable

/-- The predicate of a pattern. -/
inductive Predicate where
  | iri (value : String)
  | var (name : Variable)
  deriving DecidableEq, Hashable

/-- A triple pattern. -/
structure Pattern where
  subject : Term
  predicate : Predicate
  object : Term
  deriving DecidableEq, Hashable

/-! ## Variables -/

/-- The variable that a term is, if it is one. -/
def Term.var? : Term → Option Variable
  | var name => some name
  | _ => none

/-- The variable that a predicate is, if it is one. -/
def Predicate.var? : Predicate → Option Variable
  | var name => some name
  | iri _ => none

/-- The variables of a pattern in the order subject, predicate, object, with repetitions. -/
def Pattern.vars (p : Pattern) : List Variable :=
  [p.subject.var?, p.predicate.var?, p.object.var?].filterMap id

/-! ## Written forms -/

/-- The written form of a variable. -/
def Variable.text (name : Variable) : String := "?" ++ name

/-- The written form of an IRI. -/
def iriText (value : String) : String := "<" ++ value ++ ">"

private def upperHexDigit (n : Nat) : Char :=
  ['0', '1', '2', '3', '4', '5', '6', '7', '8', '9', 'A', 'B', 'C', 'D', 'E', 'F'].getD n '0'

/-- Four upper-case hexadecimal digits. -/
private def fourHexDigits (n : Nat) : String :=
  String.ofList ([n / 4096, n / 256, n / 16, n].map fun k => upperHexDigit (k % 16))

namespace Literal

/-- The written form of one character of a literal's value: quotes, backslashes and control
characters are escaped, all else stands for itself. -/
def charText (c : Char) : String :=
  match c with
  | '\x08' => "\\b"
  | '\t' => "\\t"
  | '\n' => "\\n"
  | '\x0c' => "\\f"
  | '\x0d' => "\\r"
  | '"' => "\\\""
  | '\\' => "\\\\"
  | c => if c.toNat ≤ 0x1f ∨ c.toNat = 0x7f then "\\u" ++ fourHexDigits c.toNat else c.toString

/-- The written form of a literal's value, between quotes. -/
def quoted (value : String) : String :=
  "\"" ++ String.join (value.toList.map charText) ++ "\""

/-- The written form of a literal. -/
def text (l : Literal) : String :=
  quoted l.value ++
    match l.annotation with
    | .plain => ""
    | .language tag => "@" ++ tag
    | .datatype iri _ => "^^" ++ iriText iri

end Literal

/-- The written form of a term. -/
def Term.text : Term → String
  | iri value => iriText value
  | blank label => "_:" ++ label
  | literal value => value.text
  | var name => name.text

/-- The written form of a predicate. -/
def Predicate.text : Predicate → String
  | iri value => iriText value
  | var name => name.text

/-- The written form of a pattern: its three terms with a space between them. -/
def Pattern.text (p : Pattern) : String :=
  " ".intercalate [p.subject.text, p.predicate.text, p.object.text]

end FederatedJoin
