import DocIndex.Source.Unit

/-!
# Token streams

A stream of tokens with a slot for one token that was put back.

* `TokenStream.toList` — the tokens that are still to come.
* `next?`, `pushBack?`, `peek?` — take one, put one back, look at one. Putting a token back fails
  while the slot is taken, so that no token is lost.
-/

namespace DocIndex

/-- Tokens still to come, the one that was put back in front. -/
structure TokenStream where
  pending : Option Token
  rest : List Token
  deriving DecidableEq, Repr

namespace TokenStream

/-- The stream of some tokens. -/
def ofList (ts : List Token) : TokenStream :=
  { pending := none, rest := ts }

/-- The tokens that are still to come. -/
def toList (ts : TokenStream) : List Token :=
  ts.pending.toList ++ ts.rest

/-- The number of tokens that are still to come. -/
def length (ts : TokenStream) : Nat :=
  ts.toList.length

/-- Takes the next token. -/
def next? (ts : TokenStream) : Option (Token × TokenStream) :=
  match ts.pending, ts.rest with
  | some t, rest => some (t, { pending := none, rest })
  | none, t :: rest => some (t, { pending := none, rest })
  | none, [] => none

/-- Puts a token back, or tells which one takes up the slot. -/
def pushBack? (ts : TokenStream) (t : Token) : Except Token TokenStream :=
  match ts.pending with
  | some u => .error u
  | none => .ok { ts with pending := some t }

/-- Looks at the next token, which is then in the slot. -/
def peek? (ts : TokenStream) : Except Token (Option Token × TokenStream) :=
  match ts.next? with
  | none => .ok (none, ts)
  | some (t, ts') => (ts'.pushBack? t).map fun ts'' => (some t, ts'')

theorem toList_next? {ts ts' : TokenStream} {t : Token} (h : ts.next? = some (t, ts')) :
    ts.toList = t :: ts'.toList := by
  obtain ⟨pending, rest⟩ := ts
  cases pending with
  | some u =>
    simp only [next?, Option.some.injEq, Prod.mk.injEq] at h
    obtain ⟨rfl, rfl⟩ := h
    rfl
  | none =>
    cases rest with
    | nil => simp [next?] at h
    | cons u rest =>
      simp only [next?, Option.some.injEq, Prod.mk.injEq] at h
      obtain ⟨rfl, rfl⟩ := h
      rfl

theorem length_next? {ts ts' : TokenStream} {t : Token} (h : ts.next? = some (t, ts')) :
    ts'.length < ts.length := by
  simp only [length, toList_next? h, List.length_cons]
  omega

end TokenStream

end DocIndex
