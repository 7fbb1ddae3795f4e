import ExprText.Expr.Kind
import ExprText.Form.Basic

/-! # The forms of operators and kinds -/

namespace ExprText

namespace BinaryOp

def ofName? (name : String) : Option BinaryOp := all.find? (·.name == name)

def ofJson? : Json String → Option BinaryOp := Form.unitCase? ofName?

def toJson (op : BinaryOp) : Json String := .str op.name

end BinaryOp

namespace UnaryOp

def ofName? (name : String) : Option UnaryOp := all.find? (·.name == name)

def ofJson? : Json String → Option UnaryOp := Form.unitCase? ofName?

def toJson (op : UnaryOp) : Json String := .str op.name

end UnaryOp

namespace AssignOp

def ofName? (name : String) : Option AssignOp := all.find? (·.name == name)

def ofJson? : Json String → Option AssignOp := Form.unitCase? ofName?

def toJson (op : AssignOp) : Json String := .str op.name

end AssignOp

namespace Kind

def plain : List Kind :=
  all.filter (·.operator?.isNone)

def ofJson? (j : Json String) : Option Kind := do
  match ← Form.case? j with
  | ("Binary", payload) => (Form.required BinaryOp.ofJson? payload).map .binary
  | ("Unary", payload) => (Form.required UnaryOp.ofJson? payload).map .unary
  | ("Assign", payload) => (Form.required AssignOp.ofJson? payload).map .assign
  | (name, payload) => if Form.isUnit payload then plain.find? (·.family == name) else none

def toJson (k : Kind) : Json String :=
  match k.operator? with
  | some op => .obj [(k.family, .str op)]
  | none => .str k.family

end Kind

end ExprText
