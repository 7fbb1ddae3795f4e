import ExprText.Ty.Basic

/-! # Signatures

The parameters, methods, properties and fields that nodes refer to. -/

namespace ExprText

inductive Modifier where
  | value | ref | out
  /-- A trailing array whose items are written as arguments of their own. -/
  | params
deriving DecidableEq, Repr, Inhabited

/-- A declared parameter; its type may mention the generic parameters of its method. -/
structure Parameter where
  name : String
  ty : Ty
  modifier : Modifier := .value
deriving DecidableEq, Repr, Inhabited

inductive MethodKind where
  | onInstance | static
  /-- A static method whose first argument is written as the receiver. -/
  | extension
deriving DecidableEq, Repr, Inhabited

/-- Marks a method as the getter or setter of a property; an ordinary property has no index
parameters. -/
structure Accessor where
  property : String
  indexParams : Nat
  isSetter : Bool
deriving DecidableEq, Repr, Inhabited

/-- A method and the type arguments it was constructed with. -/
structure Method where
  name : String
  declaringType : Ty
  kind : MethodKind
  params : List Parameter
  returnType : Ty
  genericParams : List String
  genericArgs : List Ty
  accessor : Option Accessor
deriving DecidableEq, Repr, Inhabited

namespace Method

/-- A method without parameters that returns nothing. -/
def new (kind : MethodKind) (declaringType : Ty) (name : String) : Method :=
  { name, declaringType, kind, params := [], returnType := .void, genericParams := [],
    genericArgs := [], accessor := none }

def returns (m : Method) (ty : Ty) : Method :=
  { m with returnType := ty }

private def addParam (m : Method) (p : Parameter) : Method :=
  { m with params := m.params ++ [p] }

def param (m : Method) (name : String) (ty : Ty) : Method :=
  m.addParam ⟨name, ty, .value⟩

def refParam (m : Method) (name : String) (ty : Ty) : Method :=
  m.addParam ⟨name, .byRef ty, .ref⟩

def outParam (m : Method) (name : String) (ty : Ty) : Method :=
  m.addParam ⟨name, .byRef ty, .out⟩

/-- Adds a trailing array parameter with the given element type. -/
def paramsParam (m : Method) (name : String) (element : Ty) : Method :=
  m.addParam ⟨name, .array element 1, .params⟩

/-- Adds a generic parameter together with its type argument. -/
def generic (m : Method) (name : String) (arg : Ty) : Method :=
  { m with genericParams := m.genericParams ++ [name], genericArgs := m.genericArgs ++ [arg] }

def getterOf (m : Method) (property : String) (indexParams : Nat) : Method :=
  { m with accessor := some ⟨property, indexParams, false⟩ }

def setterOf (m : Method) (property : String) (indexParams : Nat) : Method :=
  { m with accessor := some ⟨property, indexParams, true⟩ }

def isGeneric (m : Method) : Bool :=
  !m.genericParams.isEmpty

end Method

structure Member where
  name : String
  declaringType : Ty
  ty : Ty
  isStatic : Bool := false
deriving DecidableEq, Repr, Inhabited

end ExprText
