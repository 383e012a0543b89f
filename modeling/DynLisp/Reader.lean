/-
  Reader.lean --- one form taken off a list of tokens.

  WHAT THIS FILE IS FOR.  The grammar of forms, read by recursive descent:

      form  ::=  string | word | ' form | ( form* )

  A quote mark at the very end quotes the empty list, since reading past the end
  gives the empty list.  A form may stand inside at most `nestingLimit - 1` lists
  and quotes; the limit is checked where a form is expected, so it also bounds
  the recursion here.

  WHAT A READ COMES TO.  Either a datum, or a fault.  In both cases some of the
  tokens are left, and that is a proper part of what there was, with one
  exception: a form that is nested too deeply is left standing.
-/
import DynLisp.Datum.Word
import DynLisp.Token

set_option autoImplicit false

namespace DynLisp.Reader

/-- How deeply forms may be nested. -/
def nestingLimit : Nat := 512

/-- Why no form could be read. -/
inductive Fault where
  /-- the tokens end inside a list -/
  | unclosedList
  /-- a `)` stands where a form is expected; it is taken -/
  | unexpectedClose
  /-- a form would stand inside too many lists and quotes; nothing of it is taken -/
  | tooDeeplyNested
  deriving DecidableEq, Repr

/-- The end of a read, with at most `bound` tokens left. -/
inductive Reading (bound : Nat) where
  | done (datum : Datum) (rest : List Token) (fits : rest.length ≤ bound)
  | failed (fault : Fault) (rest : List Token)
      (fits : fault = .tooDeeplyNested ∨ rest.length ≤ bound)

namespace Reading

/-- The datum, or the fault. -/
def outcome {bound : Nat} : Reading bound → Except Fault Datum
  | done datum _ _ => .ok datum
  | failed fault _ _ => .error fault

/-- The tokens left. -/
def rest {bound : Nat} : Reading bound → List Token
  | done _ rest _ => rest
  | failed _ rest _ => rest

/-- A bound may be raised. -/
def widen {bound larger : Nat} (h : bound ≤ larger) : Reading bound → Reading larger
  | done datum rest fits => done datum rest (Nat.le_trans fits h)
  | failed fault rest fits => failed fault rest (fits.imp_right fun le => Nat.le_trans le h)

end Reading

/-- The rest of a list whose opening parenthesis has been taken, and some of its items, latest
first. -/
def items (form : (tokens : List Token) → Reading (tokens.length - 1)) (read : List Datum)
    (tokens : List Token) : Reading tokens.length :=
  match tokens with
  | [] => .failed .unclosedList [] (by simp)
  | .closing :: rest => .done (Datum.ofList read.reverse) rest (by simp)
  | token :: more =>
    match form (token :: more) with
    | .failed fault rest fits => .failed fault rest (fits.imp_right fun le => by simp at le ⊢; omega)
    | .done item rest fits =>
      (items form (item :: read) rest).widen (by simp at fits ⊢; omega)
termination_by tokens.length
decreasing_by simp only [List.length_cons, Nat.add_sub_cancel] at fits ⊢; omega

/-- The next form, which may hold forms nested less than `room` deep. -/
def form : (room : Nat) → (tokens : List Token) → Reading (tokens.length - 1)
  | 0, tokens => .failed .tooDeeplyNested tokens (.inl rfl)
  | _ + 1, [] => .done .nil [] (Nat.zero_le _)
  | _ + 1, .string content :: rest => .done (.string content) rest (Nat.le_refl _)
  | _ + 1, .word text :: rest => .done (Datum.ofWord text) rest (Nat.le_refl _)
  | _ + 1, .closing :: rest => .failed .unexpectedClose rest (.inr (Nat.le_refl _))
  | room + 1, .opening :: rest => items (form room) [] rest
  | room + 1, .quote :: rest =>
    match form room rest with
    | .done datum rest' fits =>
      .done (Datum.quoted datum) rest' (Nat.le_trans fits (Nat.sub_le _ _))
    | .failed fault rest' fits =>
      .failed fault rest' (fits.imp_right fun le => Nat.le_trans le (Nat.sub_le _ _))

end DynLisp.Reader
