import Terraload.Text.Printable
import Terraload.Number.Digits
/-!
Texts in quotes: a single quote on each side, or double quotes around a text that holds single ones
only. What has no visible form is written as an escape.
-/
namespace Terraload

def Text.quote (t : Text) : Char :=
  if t.contains (.char '\x27') && !t.contains (.char '"') then '"' else '\x27'

def CodePoint.escape (quote : Char) (c : CodePoint) : Text :=
  let n := c.val
  if c = .char quote || c = .char '\\' then [.char '\\', c]
  else if c = .char '\n' then text "\\n"
  else if c = .char '\r' then text "\\r"
  else if c = .char '\t' then text "\\t"
  else if c.isPrintable then [c]
  else if n < 0x100 then Text.ofChars ('\\' :: 'x' :: hexDigits 2 n)
  else if n < 0x10000 then Text.ofChars ('\\' :: 'u' :: hexDigits 4 n)
  else Text.ofChars ('\\' :: 'U' :: hexDigits 8 n)

def Text.quoted (t : Text) : Text :=
  let q := t.quote
  .char q :: (t.flatMap (CodePoint.escape q) ++ [.char q])

end Terraload
