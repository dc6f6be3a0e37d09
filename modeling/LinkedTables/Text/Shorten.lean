/-!
# Shortened texts

A text much longer than wanted is shown by its two ends. One that exceeds the wanted length by
fewer than twenty characters stays whole, so that shortening always saves something.
-/

namespace LinkedTables

namespace Text

/-- The first and the last `n / 2` characters, with three dots between them. -/
def shorten (text : String) (n : Nat) : String :=
  let cs := text.toList
  if cs.length < n + 20 then text
  else String.ofList (cs.take (n / 2)) ++ "..." ++ String.ofList (cs.drop (cs.length - n / 2))

end Text

end LinkedTables
