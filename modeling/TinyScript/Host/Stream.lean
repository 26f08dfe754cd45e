import TinyScript.Text.Basic

/-!
# Writing piece by piece

A file that is being written is known by the pieces written to it so far. How many of their bytes have gone out
to the file, and are there if writing is given up, is up to the host.
-/

namespace TinyScript.Host

/-- A file under way. -/
structure Stream where
  pieces : List Text := []
  deriving DecidableEq, Inhabited, Repr

namespace Stream

def write (s : Stream) (piece : Text) : Stream := ⟨piece :: s.pieces⟩

def written (s : Stream) : Text := Text.concat s.pieces.reverse

/-- What has gone out to the file, on a host that holds bytes back as `spill` tells. -/
def sent (s : Stream) (spill : List Text → Nat) : Text := ⟨s.written.bytes.take (spill s.pieces.reverse)⟩

end Stream

end TinyScript.Host
