import DataExpr.Value.Json

/-!
# Values of native data

How native data becomes values.  Integers wider than 64 bits with sign wrap.
-/

namespace DataExpr

/-- Types whose elements become values. -/
class ToValue (α : Type) where
  toValue : α → Value

export ToValue (toValue)

instance : ToValue Value := ⟨id⟩
instance : ToValue Bool := ⟨.bool⟩
instance : ToValue Int8 := ⟨fun n => .int n.toInt64⟩
instance : ToValue Int16 := ⟨fun n => .int n.toInt64⟩
instance : ToValue Int32 := ⟨fun n => .int n.toInt64⟩
instance : ToValue Int64 := ⟨.int⟩
instance : ToValue UInt8 := ⟨fun n => .int n.toUInt64.toInt64⟩
instance : ToValue UInt16 := ⟨fun n => .int n.toUInt64.toInt64⟩
instance : ToValue UInt32 := ⟨fun n => .int n.toUInt64.toInt64⟩
instance : ToValue UInt64 := ⟨fun n => .int n.toInt64⟩
instance : ToValue Float32 := ⟨fun x => .ofFloat x.toFloat⟩
instance : ToValue Float := ⟨.ofFloat⟩
instance : ToValue String := ⟨.str⟩
instance : ToValue Function := ⟨.function⟩
instance : ToValue Json := ⟨.ofJson⟩

/-- An absent value is null. -/
instance {α : Type} [ToValue α] : ToValue (Option α) := ⟨fun
  | some a => toValue a
  | none => .null⟩

instance {α : Type} [ToValue α] : ToValue (List α) := ⟨fun as => .list (as.map toValue)⟩

instance {α β : Type} [ToValue α] [ToValue β] : ToValue (α × β) :=
  ⟨fun (a, b) => .tuple [toValue a, toValue b]⟩

/-- A tuple of three values. -/
def Value.ofTriple {α β γ : Type} [ToValue α] [ToValue β] [ToValue γ] (a : α) (b : β) (c : γ) :
    Value :=
  .tuple [toValue a, toValue b, toValue c]

end DataExpr
