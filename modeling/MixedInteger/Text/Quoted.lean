import MixedInteger.Text.Extending
import MixedInteger.Text.Unshown

/-!
# Quoted text

Text inside a message stands in double quotes. Quotes and backslashes are escaped, so are the common
control characters by a letter and other characters that do not show by their code.
-/

namespace MixedInteger.Text

/-- Letters that are drawn as nothing. They only hold a place. -/
def fillers : Ranges := ⟨[(0x115F, 0x1160), (0x3164, 0x3164), (0xFFA0, 0xFFA0)]⟩

/-- Whether a character on its own leaves nothing to be seen, or changes how the one before it
looks. All of ASCII but its controls shows, so that no table is needed there. -/
def isHidden (c : Char) : Bool :=
  if c.toNat < 0x7F then c.toNat < 0x20
  else unshown.covers c || extending.covers c || fillers.covers c

def escape (c : Char) : List Char :=
  if c = '"' then ['\\', '"']
  else if c = '\\' then ['\\', '\\']
  else if c = '\n' then ['\\', 'n']
  else if c = '\r' then ['\\', 'r']
  else if c = '\t' then ['\\', 't']
  else if c = '\x00' then ['\\', '0']
  else if isHidden c then '\\' :: 'u' :: '\x7b' :: (Nat.toDigits 16 c.toNat ++ ['\x7d'])
  else [c]

def quoted (s : String) : String := String.ofList ('"' :: (s.toList.flatMap escape ++ ['"']))

end MixedInteger.Text
