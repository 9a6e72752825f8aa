import DocIndex.CommandLine.Shape

/-!
# Reading command lines

`Invocation.read` reads the words behind the program's name: switches, a verb, and what belongs to
the verb. Behind two dashes every word is taken as it is.

A value is looked at when the next choice, switch or slot comes, so that a word without a place
stops the reading before a bad value in front of it does.
-/

namespace DocIndex

/-- What has been taken up but not looked at. -/
inductive Pending
  /-- A choice, with its value if it has come. -/
  | choice (c : Choice) (value : Option String)
  /-- The value of the slot at a place. -/
  | slot (place : Nat) (s : Slot) (value : String)
  deriving Repr

/-- How far the words have been read. -/
structure CommandReading where
  verb : Option Verb
  verbosity : Nat := 0
  /-- The values given by name. -/
  named : List (String × String) := []
  /-- The values given by place. -/
  placed : List (Nat × String) := []
  /-- The place of the next slot. -/
  place : Nat := 0
  /-- Two dashes have been read. -/
  trailing : Bool := false
  pending : Option Pending := none

namespace CommandReading

variable (r : CommandReading)

/-- The choices that may come. -/
def choices : List Choice :=
  (r.verb.map Verb.choices).getD []

/-- The slots that there are. -/
def slots : List Slot :=
  (r.verb.map Verb.slots).getD []

/-- Takes down the value of a choice. -/
def choose (c : Choice) (value : String) : Except Stop CommandReading :=
  if (r.named.lookup c.long).isSome then .error .repeated
  else if c.kind.accepts value then .ok { r with named := r.named ++ [(c.long, value)] }
  else .error .badValue

/-- Looks at what is pending. -/
def settle : Except Stop CommandReading :=
  let settled := { r with pending := none }
  match r.pending with
  | none => .ok r
  | some (.choice _ none) => .error .badValue
  | some (.choice c (some value)) => settled.choose c value
  | some (.slot place s value) =>
    if s.kind.accepts value then .ok { settled with placed := r.placed ++ [(place, value)] }
    else .error .badValue

/-- Takes up a switch. The verbosity is counted up to 255. -/
def flip (s : Switch) : Except Stop CommandReading := do
  let r ← r.settle
  match s with
  | .verbose => return { r with verbosity := min 255 (r.verbosity + 1) }
  | .help => .error (.help r.verb)
  | .version => .error .version

/-- Takes up a choice. A value that is attached is looked at at once; else the next word is the
value. -/
def take (c : Choice) (attached : Option String) : Except Stop CommandReading := do
  let r ← r.settle
  match attached with
  | some value => r.choose c value
  | none => return { r with pending := some (.choice c none) }

/-- Reads a word behind its two dashes: a long name, and a value behind an equals sign. -/
def readLong (cs : List Char) : Except Stop CommandReading :=
  let name := String.ofList (cs.takeWhile (· != '='))
  let attached :=
    match cs.dropWhile (· != '=') with
    | [] => none
    | _ :: value => some (String.ofList value)
  match (Switch.available r.verb).find? fun s => s.long == name with
  | some s => if attached.isSome then .error .needlessValue else r.flip s
  | none =>
    match r.choices.find? fun c => c.long == name with
    | some c => r.take c attached
    | none => .error .unknownWord

/-- The value that is attached to a short name. -/
def attachedTo : List Char → Option String
  | [] => none
  | '=' :: value => some (String.ofList value)
  | value => some (String.ofList value)

/-- Reads a word behind its one dash: short names, the last of them with a value attached. -/
def readShort (r : CommandReading) : List Char → Except Stop CommandReading
  | [] => .ok r
  | c :: cs =>
    match (Switch.available r.verb).find? fun s => s.short == c with
    -- a switch takes no value, so that more short names may follow it
    | some s => do readShort (← r.flip s) cs
    | none =>
      match r.choices.find? fun choice => choice.short == c with
      | some choice => r.take choice (attachedTo cs)
      | none => .error .unknownWord

/-- The place that a word falls to: behind two dashes a slot for what stands there comes at once. -/
def nextPlace : Nat :=
  if r.trailing then
    (r.slots.findIdx? fun s => s.arity == .trailing).getD r.place
  else r.place

/-- Reads a word into a slot. -/
def readSlot (word : String) : Except Stop CommandReading :=
  match r.slots[r.nextPlace]? with
  | none => .error (if r.verb.isNone then .unknownVerb else .unknownWord)
  | some s =>
    if s.arity == .trailing && !r.trailing then .error .unknownWord
    else do
      let t ← r.settle
      let many := s.arity == .several || s.arity == .trailing
      return { t with
        place := if many then r.nextPlace else r.nextPlace + 1
        pending := some (.slot r.nextPlace s word) }

/-- Reads a word without dashes: the value of the choice in front of it, or what a slot takes. -/
def readBare (word : String) : Except Stop CommandReading :=
  match r.pending with
  -- the choice in front still waits for its value
  | some (.choice c none) => .ok { r with pending := some (.choice c (some word)) }
  | _ => r.readSlot word

/-- Reads a word that is no verb. -/
def read (word : String) : Except Stop CommandReading :=
  if r.trailing then r.readSlot word
  else
    match word.toList with
    | ['-', '-'] => .ok { r with trailing := true }
    | '-' :: '-' :: cs => r.readLong cs
    | '-' :: c :: cs => r.readShort (c :: cs)
    | _ => r.readBare word

/-! ## Verbs -/

/-- What to give help on, where help is asked for by its verb. -/
def topic : List String → Except Stop (Option Verb)
  | [] => .ok none
  | [word] =>
    match Verb.ofName? word with
    | some v => .ok (some v)
    | none => .error .unknownVerb
  | _ => .error .unknownVerb

/-- Reads up to the verb; the words behind it are left. -/
def readVerb (r : CommandReading) : List String → Except Stop (CommandReading × Verb × List String)
  | [] => .error (if r.verbosity = 0 then .nothing else .missingVerb)
  | word :: words =>
    match Verb.ofName? word with
    | some v =>
      -- behind two dashes no word is a verb
      if r.trailing then .error .unknownWord
      else if v = .help then do .error (.help (← topic words))
      else .ok (r, v, words)
    | none => do readVerb (← r.read word) words

/-! ## What has been read -/

/-- The value of a choice, given or standard. -/
def value? (c : Choice) : Option String :=
  (r.named.lookup c.long).or c.standard

/-- The values of the slot at a place. -/
def valuesAt (place : Nat) : List String :=
  (r.placed.filter fun e => e.1 == place).map Prod.snd

/-- The value of a slot that takes one, given or standard. -/
def valueAt (place : Nat) : String :=
  ((r.valuesAt place).head?.or (r.slots[place]?.bind Slot.standard)).getD ""

/-- Every slot has the words that it needs. -/
def complete : Bool :=
  r.slots.zipIdx.all fun (s, place) =>
    !(s.arity == .one || s.arity == .several) || !(r.valuesAt place).isEmpty

/-- How to report. -/
def output : Output :=
  { format := (r.value? .format).bind ReportFormat.ofName?
    config := (r.value? .config).map Path.mk }

/-- The root of the project. -/
def root : Path :=
  ⟨(r.value? .root).getD ""⟩

/-- The scope. -/
def scope : DocScope :=
  { namespacePath := (r.value? (.scope "")).getD ""
    moduleName := (r.value? .moduleName).getD "" }

/-- The command of a verb. -/
def command : Verb → Command
  | .scan => .scan ⟨r.valueAt 0⟩ (r.valuesAt 1) r.output
  | .index => .index ⟨r.valueAt 0⟩ r.output
  | .query =>
    .query (r.valueAt 0) (r.valuesAt 1) r.scope (r.value? .document) r.root r.output
  | .members => .members r.scope r.root r.output
  | .watch => .watch ⟨r.valueAt 0⟩ r.output.config
  | .init | .help => .init

end CommandReading

/-- Reads the words behind the program's name. The verbosity that is asked for behind the verb
counts before the one in front of it. -/
def Invocation.read (words : List String) : Except Stop Invocation := do
  let (front, verb, rest) ← CommandReading.readVerb { verb := none } words
  let r ← rest.foldlM CommandReading.read { verb := some verb }
  let r ← r.settle
  if r.complete then
    return {
      verbosity := if r.verbosity = 0 then front.verbosity else r.verbosity
      command := r.command verb }
  else .error .missingWord

end DocIndex
