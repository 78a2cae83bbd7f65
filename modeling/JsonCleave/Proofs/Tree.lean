import JsonCleave.Written.Writer
/-!
# Documents as trees

The stream knows a document only as a sequence of tokens. Here a document is a tree, and its
tokens and its compact text are recursions over that tree; neither mentions a depth, a
stack or a count of entries.
-/

namespace JsonCleave

/-- JSON values. Members keep their order, and names may be repeated. -/
inductive Tree where
  | scalar (value : Scalar)
  | object (members : List (String × Tree))
  | array (elements : List Tree)

namespace Tree

def shape? : Tree → Option Shape
  | .scalar _ => none
  | .object _ => some .object
  | .array _ => some .array

def isContainer (v : Tree) : Bool := v.shape?.isSome

/-! ## Tokens -/

mutual
/-- The tokens of a value in document order. -/
def tokens : Tree → List Token
  | .scalar value => [.scalar value]
  | .object members => .opening .object :: (memberTokens members ++ [.closing .object])
  | .array elements => .opening .array :: (elementTokens elements ++ [.closing .array])

def memberTokens : List (String × Tree) → List Token
  | [] => []
  | (name, value) :: rest => .key name :: (tokens value ++ memberTokens rest)

def elementTokens : List Tree → List Token
  | [] => []
  | value :: rest => tokens value ++ elementTokens rest
end

def laterTokens (v : Tree) : List Token := v.tokens.tail

theorem tokens_ne_nil (v : Tree) : v.tokens ≠ [] := by
  cases v <;> simp [tokens]

theorem length_tokens_pos (v : Tree) : 0 < v.tokens.length :=
  List.length_pos_iff.mpr v.tokens_ne_nil

theorem tokens_of_shape {v : Tree} {shape : Shape} (hv : v.shape? = some shape) :
    v.tokens = .opening shape :: v.laterTokens := by
  cases v with
  | scalar value => simp [shape?] at hv
  | object members => cases hv; rfl
  | array elements => cases hv; rfl

/-- All integers of the value are within the digit limit. -/
def IsPrintable (limit : DigitLimit) (v : Tree) : Prop := ∀ t ∈ v.tokens, t.IsPrintable limit

instance (limit : DigitLimit) (v : Tree) : Decidable (v.IsPrintable limit) :=
  inferInstanceAs (Decidable (∀ t ∈ v.tokens, t.IsPrintable limit))

theorem IsPrintable.laterTokens {limit : DigitLimit} {v : Tree} (hv : v.IsPrintable limit) :
    ∀ t ∈ v.laterTokens, t.IsPrintable limit :=
  fun t ht => hv t (List.mem_of_mem_tail ht)

theorem isPrintable_of_laterTokens {limit : DigitLimit} {v : Tree} {shape : Shape}
    (hv : v.shape? = some shape) (h : ∀ t ∈ v.laterTokens, t.IsPrintable limit) :
    v.IsPrintable limit := by
  rw [IsPrintable, tokens_of_shape hv]
  exact List.forall_mem_cons.mpr ⟨rfl, h⟩

def lastName (members : List (String × Tree)) : Option String := (members.getLast?).map Prod.fst

theorem or_lastName_cons (name : String) (value : Tree) (rest : List (String × Tree))
    (key : Option String) :
    (lastName ((name, value) :: rest)).or key = (lastName rest).or (some name) := by
  cases hlast : rest.getLast? <;> simp [lastName, List.getLast?_cons, hlast]

/-! ## Compact text -/

mutual
/-- The compact JSON text of a value. -/
def text : Tree → String
  | .scalar value => value.written
  | .object members => "\x7b" ++ ",".intercalate (memberTexts members) ++ "\x7d"
  | .array elements => "[" ++ ",".intercalate (elementTexts elements) ++ "]"

def memberTexts : List (String × Tree) → List String
  | [] => []
  | (name, value) :: rest => (literal name ++ ":" ++ text value) :: memberTexts rest

def elementTexts : List Tree → List String
  | [] => []
  | value :: rest => text value :: elementTexts rest
end

end Tree

end JsonCleave
