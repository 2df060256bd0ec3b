import FormCompiler.Token.Stream
import FormCompiler.Token.Tokenizer

/-!
A bounded queue between a worker, which reads tokens, and a consumer, which takes them. Both move
one step at a time, in any order.
-/

namespace FormCompiler

inductive Worker where
  | checking (n : Nat)
  | reading (n : Nat)
  | sending (n : Nat)
  | leaving
  | gone
  deriving DecidableEq, Repr

/-- `tokens n` is what the tokenizer gives when it is asked for the `n`-th time. The `channel` holds
the tokens that were sent and not yet taken, at most `capacity` of them; it is `connected` until the
consumer drops its end. The queue is `finished` when the consumer has seen the end, or has stopped
the worker. -/
structure TokenQueue where
  capacity : Nat
  tokens : Nat → Token
  worker : Worker := .checking 0
  channel : List Token := []
  stop : Bool := false
  connected : Bool := true
  finished : Bool := false

namespace TokenQueue

def afterEnd : Token := ⟨.eof, .nowhere⟩

def ofTokens (tokens : Nat → Token) (capacity : Nat) : TokenQueue :=
  { capacity := max capacity 1, tokens }

def spawn (source : Source) (capacity : Nat) : TokenQueue :=
  ofTokens (Tokenizer.ofSource source).nth capacity

def started (capacity : Nat) : Note :=
  .debug s!"tokenizer worker started (capacity {max capacity 1})"

def work? (q : TokenQueue) : Option TokenQueue :=
  match q.worker with
  | .checking n => some { q with worker := if q.stop then .leaving else .reading n }
  | .reading n => some { q with worker := .sending n }
  | .sending n =>
    if q.connected then
      if q.channel.length < q.capacity then
        some { q with
          worker := if (q.tokens n).isEof then .leaving else .checking (n + 1)
          channel := q.channel ++ [q.tokens n] }
      else none
    else some { q with worker := .leaving }
  | .leaving => some { q with worker := .gone }
  | .gone => none

def tryTake (q : TokenQueue) : Option Token × TokenQueue :=
  if q.finished then (some afterEnd, q)
  else
    match q.channel with
    | t :: ts => (some t, { q with channel := ts, finished := t.isEof })
    | [] => if q.worker = .gone then (some afterEnd, { q with finished := true }) else (none, q)

def await : Nat → TokenQueue → Token × TokenQueue
  | 0, q => (afterEnd, q)
  | n + 1, q =>
    match q.tryTake with
    | (some t, q) => (t, q)
    | (none, q) => await n (q.work?.getD q)

def take (q : TokenQueue) : Token × TokenQueue := q.await 5

def halt (q : TokenQueue) : TokenQueue := { q with stop := true, finished := true }

def hangUp (q : TokenQueue) : TokenQueue := { q with connected := false, channel := [] }

def shutdown (q : TokenQueue) : TokenQueue := q.halt.hangUp

end TokenQueue

namespace TokenStream

def queued (source : Source) : TokenStream :=
  { pending := tokenize source.chars, ending := .nowhere, audible := false }

end TokenStream

end FormCompiler
