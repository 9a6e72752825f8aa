import DocIndex.Proofs.Comment.Interrupted

/-!
# A stream of tokens is a list

From the outside the slot of a stream cannot be told from the tokens behind it. As long as no token
is put back while another one is pending, every call does to the tokens that are still to come what
it does to a list; and a token that is refused changes nothing. The readers of comments put a token
back only right behind taking one, so none of theirs is ever refused, whatever stream they are
handed.

* `TokenStream.drained` — what a stream still yields, token by token.
* `StreamCall.onList` — what a call does to a list.
* `TokenStream.trace_eq` — **a run of calls is told by the list.**
* `SourceUnit.SparesSlot` — no token that a reader puts back meets a pending one.
-/

namespace DocIndex

/-- What can be asked of a stream. -/
inductive StreamCall
  | next
  | peek
  | pushBack (t : Token)
  deriving DecidableEq, Repr

/-- What a stream answers. -/
inductive StreamAnswer
  /-- The next token, if there is one. -/
  | token (next : Option Token)
  /-- The token was put back. -/
  | done
  /-- No token can be put back while this one is pending. -/
  | refused (pending : Token)
  deriving DecidableEq, Repr

/-- What a call answers of a list, and what it makes of it. -/
def StreamCall.onList (tokens : List Token) : StreamCall → StreamAnswer × List Token
  | .next => (.token tokens.head?, tokens.tail)
  | .peek => (.token tokens.head?, tokens)
  | .pushBack t => (.done, t :: tokens)

/-- A run of calls on a list: after each, what was answered and the list. -/
def listTrace (tokens : List Token) : List StreamCall → List (StreamAnswer × List Token)
  | [] => []
  | c :: calls => c.onList tokens :: listTrace (c.onList tokens).2 calls

namespace TokenStream

/-- The tokens that a stream yields, one after the other, until there are none. -/
def drained (ts : TokenStream) : List Token :=
  match _h : ts.next? with
  | none => []
  | some (t, ts') => t :: drained ts'
termination_by ts.length
decreasing_by exact length_next? ‹_›

/-- What a call answers, and the stream that it leaves. A token that is refused leaves it as it
was. -/
def call (ts : TokenStream) : StreamCall → StreamAnswer × TokenStream
  | .next =>
    match ts.next? with
    | some (t, ts') => (.token (some t), ts')
    | none => (.token none, ts)
  | .peek =>
    match ts.peek? with
    | .ok (next, ts') => (.token next, ts')
    | .error u => (.refused u, ts)
  | .pushBack t =>
    match ts.pushBack? t with
    | .ok ts' => (.done, ts')
    | .error u => (.refused u, ts)

/-- The stream that a run of calls leaves. -/
def after (ts : TokenStream) (calls : List StreamCall) : TokenStream :=
  calls.foldl (fun ts c => (ts.call c).2) ts

/-- A run of calls: after each, what was answered and what a copy of the stream still yields. -/
def trace (ts : TokenStream) : List StreamCall → List (StreamAnswer × List Token)
  | [] => []
  | c :: calls => ((ts.call c).1, (ts.call c).2.drained) :: (ts.call c).2.trace calls

/-- The call puts no token back while another one is pending. -/
def Admits (ts : TokenStream) : StreamCall → Prop
  | .pushBack _ => ts.pending = none
  | _ => True

/-- No call of the run puts a token back while another one is pending. -/
def AdmitsAll (ts : TokenStream) : List StreamCall → Prop
  | [] => True
  | c :: calls => ts.Admits c ∧ (ts.call c).2.AdmitsAll calls

variable {ts : TokenStream} {c : StreamCall} {u : Token}

/-! ## Calls, and runs of them -/

theorem drained_eq (ts : TokenStream) : ts.drained = ts.toList := by
  fun_induction drained ts with
  | case1 ts hn => exact (toList_next?_none hn).symm
  | case2 ts t ts' hn ih => rw [ih, toList_next? hn]

/-- **One call does to the tokens to come what it does to a list**, wherever the first of them is
kept. -/
theorem call_eq (h : ts.Admits c) :
    (ts.call c).1 = (c.onList ts.toList).1 ∧ (ts.call c).2.toList = (c.onList ts.toList).2 := by
  cases c with
  | next =>
    cases hn : ts.next? with
    | none => simp [call, StreamCall.onList, hn, toList_next?_none hn]
    | some r => simp [call, StreamCall.onList, hn, toList_next? hn]
  | peek =>
    obtain ⟨⟨next, ts'⟩, hpeek⟩ := exists_peek? ts
    obtain ⟨hnext, hlist⟩ := toList_peek? hpeek
    simp [call, StreamCall.onList, hpeek, hnext, hlist]
  | pushBack t =>
    obtain ⟨ts', hpush, hlist⟩ := pushBack?_eq h t
    simp [call, StreamCall.onList, hpush, hlist]

/-- **A run of calls is told by the list** that the stream yields at first. -/
theorem trace_eq {calls : List StreamCall} (h : ts.AdmitsAll calls) :
    ts.trace calls = listTrace ts.toList calls := by
  induction calls generalizing ts with
  | nil => rfl
  | cons c calls ih =>
    obtain ⟨hanswer, hlist⟩ := call_eq h.1
    rw [trace, listTrace, drained_eq, ih h.2, hanswer, hlist]

/-- While a token is pending no other one is put back. -/
theorem call_pushBack (h : ts.pending = some u) (t : Token) :
    ts.call (.pushBack t) = (.refused u, ts) := by
  simp only [call, pushBack?, h]

/-- A pending token is the next one. -/
theorem head?_drained (h : ts.pending = some u) : ts.drained.head? = some u := by
  rw [drained_eq, toList, h]
  rfl

end TokenStream

/-! ## Readers -/

/-- No token that a reader of comments or declarations puts back meets a pending one, whatever
stream the reader is handed. -/
structure SourceUnit.SparesSlot (u : SourceUnit) : Prop where
  peek : ∀ ts : TokenStream, ∃ r, ts.peek? = .ok r
  comment : ∀ (ts : TokenStream) (pending : Token),
    nextRun? u.path ts ≠ .error (.occupied pending)
  declaration : ∀ ts : TokenStream, ∃ a, u.nextDeclaration ts = .ok a
  file : ∀ (options : ScanOptions) (ts : TokenStream) (pending : Token),
    u.fileNext? options ts ≠ .error (.occupied pending)
  scan : ∀ (modified : Timestamp) (options : ScanOptions) (pending : Token),
    (u.scan modified options).result ≠ .error (.occupied pending)

/-- What stops a reader is always a block comment. -/
theorem SourceUnit.sparesSlot (u : SourceUnit) : u.SparesSlot where
  peek := exists_peek?
  comment ts pending h := by
    obtain ⟨_, _, _, _, _, -, -, -, -, -, he⟩ := of_nextRun?_error h
    cases he
  declaration := u.exists_nextDeclaration
  file options ts pending h := by
    obtain ⟨_, he, -⟩ := cut_fileNext?_error h
    cases he
  scan modified options pending h := by
    obtain ⟨ps, ending, -, htold⟩ := cut_scan u modified options
    cases ending with
    | none =>
      obtain ⟨f, hf, -⟩ := htold
      rw [hf] at h
      cases h
    | some location =>
      rw [show (u.scan modified options).result = _ from htold] at h
      cases h

open TokenStream

/-- **A stream is a list, and its slot is never misused.** As long as no token is put back while
another one is pending, a run of calls gives what it gives on the list of the tokens; a token that
is put back while another one is pending is refused, and the other one stays the next. No reader of
any unit ever gets there, whatever the extents of its cursors and the owners of its tokens. -/
theorem pushBack_spared :
    (∀ (tokens : List Token) (calls : List StreamCall), (ofList tokens).AdmitsAll calls →
      (ofList tokens).trace calls = listTrace tokens calls) ∧
    (∀ (tokens : List Token) (calls : List StreamCall) (t u : Token),
      ((ofList tokens).after calls).pending = some u →
        ((ofList tokens).after calls).call (.pushBack t) =
            (.refused u, (ofList tokens).after calls) ∧
          ((ofList tokens).after calls).drained.head? = some u) ∧
    ∀ u : SourceUnit, u.SparesSlot :=
  ⟨fun _ _ h => trace_eq h, fun _ _ t _ h => ⟨call_pushBack h t, head?_drained h⟩,
    SourceUnit.sparesSlot⟩

/-- The first lexeme of `int a`. -/
def firstWord : Token := ⟨"int", .keyword, ⟨⟨1, 1, 0⟩, ⟨1, 4, 3⟩⟩, 0⟩

/-- The other lexeme of `int a`. -/
def otherWord : Token := ⟨"a", .identifier, ⟨⟨1, 5, 4⟩, ⟨1, 6, 5⟩⟩, 0⟩

/-- In `int a` the first lexeme can be looked at, taken and put back; but while it is in the slot,
the other one cannot be put back. -/
theorem pushBack_spared_pair :
    ((ofList [firstWord, otherWord]).trace [.peek, .next, .pushBack firstWord, .next] =
      [(.token (some firstWord), [firstWord, otherWord]), (.token (some firstWord), [otherWord]),
        (.done, [firstWord, otherWord]), (.token (some firstWord), [otherWord])]) ∧
    ((ofList [firstWord, otherWord]).after [.peek]).call (.pushBack otherWord) =
      (.refused firstWord, (ofList [firstWord, otherWord]).after [.peek]) := by
  refine ⟨?_, (pushBack_spared.2.1 [firstWord, otherWord] [.peek] otherWord firstWord rfl).1⟩
  exact pushBack_spared.1 [firstWord, otherWord] [.peek, .next, .pushBack firstWord, .next]
    ⟨trivial, trivial, rfl, trivial, trivial⟩

end DocIndex
