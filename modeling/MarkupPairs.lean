import MarkupPairs.Proofs.AnglePairs
import MarkupPairs.Proofs.BracketMatching
import MarkupPairs.Proofs.ClassFocus
import MarkupPairs.Proofs.ForestDeletion
import MarkupPairs.Proofs.ForestUnwrapping
import MarkupPairs.Proofs.Jumping
import MarkupPairs.Proofs.LineEndings
import MarkupPairs.Proofs.LineSelection
import MarkupPairs.Proofs.MergedSelections
import MarkupPairs.Proofs.NeverRefused
import MarkupPairs.Proofs.PartnerReading
import MarkupPairs.Proofs.PartnerWindow
import MarkupPairs.Proofs.PrimarySelection
import MarkupPairs.Proofs.QuotedAttributes
import MarkupPairs.Proofs.QuotedLiterals
import MarkupPairs.Proofs.SessionRun
import MarkupPairs.Proofs.SettingsOverlay
import MarkupPairs.Proofs.TagAgreement
import MarkupPairs.Proofs.TagCarets
import MarkupPairs.Session.Command
