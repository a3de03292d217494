import Tlv.Cursor.Items
import Tlv.Encoder.Run
import Tlv.Desk
import Tlv.Main
import Tlv.Proofs.Canonical
import Tlv.Proofs.CommandRoundTrip
import Tlv.Proofs.Concatenation
import Tlv.Proofs.Marks
import Tlv.Proofs.RoundTrip
import Tlv.Proofs.Truncation
import Tlv.Checked
import Tlv.Cursor.Indexed
import Tlv.Encoder.InPlace
import Tlv.Proofs.Writes
import Tlv.Proofs.Places
import Tlv.Proofs.Coverage
import Tlv.Proofs.Bound
import Tlv.Proofs.Readings
import Tlv.Proofs.Texts
import Tlv.Proofs.Access
import Tlv.Proofs.Spellings
import Tlv.Proofs.Refusals
import Tlv.Proofs.Grammar
import Tlv.Proofs.ShownFields
import Tlv.Proofs.ShownItems
import Tlv.Proofs.Warnings
import Tlv.Proofs.Words
import Tlv.Proofs.Placement
