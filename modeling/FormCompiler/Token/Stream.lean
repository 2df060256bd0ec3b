import FormCompiler.Source
import FormCompiler.Token.Lexer

namespace FormCompiler

/-- Tokens to come. `ending` is the place of the ends that follow the last of them. What is noted
while tokens are read is heard only if the stream is `audible`; `closing` is noted with the first
end. -/
structure TokenStream where
  pending : List Token
  ending : Span
  closing : List Note := []
  audible : Bool := true

namespace TokenStream

def next (s : TokenStream) : Token × TokenStream :=
  match s.pending with
  | [] => (⟨.eof, s.ending⟩, s)
  | t :: ts => (t, { s with pending := ts })

def ofSource (source : Source) : TokenStream :=
  { pending := tokenize source.chars
    ending := .point (Position.first.afterAll source.chars)
    closing := source.closing }

def heard (s : TokenStream) (t : Token) : List Note :=
  if s.audible then (if t.isEof then s.closing else []) ++ t.notes else []

end TokenStream

end FormCompiler
