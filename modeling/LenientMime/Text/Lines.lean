import LenientMime.Text.Basic

namespace LenientMime.Text

/-- The lines without their ends.  A final line feed ends the last line and opens
no further one. -/
def lines : Text → List Text
  | [] => []
  | '\n' :: rest => [] :: lines rest
  | '\r' :: '\n' :: rest => [] :: lines rest
  | c :: rest =>
      match lines rest with
      | [] => [[c]]
      | first :: later => (c :: first) :: later

end LenientMime.Text
