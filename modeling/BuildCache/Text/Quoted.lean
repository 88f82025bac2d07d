import BuildCache.Text.DefaultIgnorable
import BuildCache.Text.GraphemeExtend
import BuildCache.Text.Unprintable

/-! # Text in double quotes, with escapes for what does not show by itself -/
namespace BuildCache.Text

/-- The two sound marks of halfwidth kana extend a grapheme and still take a cell of their own. -/
def isHalfwidthSoundMark (c : Char) : Bool := c = '\uFF9E' || c = '\uFF9F'

/-- Whether a character would be lost or misread when it is written as it is. -/
def isHidden (c : Char) : Bool :=
  isUnprintable c || isIgnorable c || (extendsGrapheme c && !isHalfwidthSoundMark c)

def escape (c : Char) : List Char :=
  match c with
  | '"' => ['\\', '"']
  | '\\' => ['\\', '\\']
  | '\x00' => ['\\', '0']
  | '\t' => ['\\', 't']
  | '\n' => ['\\', 'n']
  | '\r' => ['\\', 'r']
  | ' ' => [' ']
  | c => if isHidden c then '\\' :: 'u' :: '{' :: Nat.toDigits 16 c.toNat ++ ['}'] else [c]

def quoted (s : String) : String := String.ofList ('"' :: s.toList.flatMap escape ++ ['"'])

end BuildCache.Text
