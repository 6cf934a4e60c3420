/-!
# The prelude

Definitions that are compiled ahead of every program, unless it asks to do without them: the
counting loops of the integers, written in the language itself.
-/
namespace TypedBlocks

def preludeText : String :=
  String.intercalate "\n" [
    "",
    "class Int",
    "  def times",
    "    i = 0",
    "    while i < self",
    "      yield i",
    "      i += 1",
    "    end",
    "    self",
    "  end",
    "",
    "  def upto(n)",
    "    i = self",
    "    while i <= n",
    "      yield i",
    "      i += 1",
    "    end",
    "    self",
    "  end",
    "end",
    ""]

end TypedBlocks
