import LineShell.Main
import LineShell.Proofs.Splitting
import LineShell.Proofs.Batch
import LineShell.Proofs.Dropping
import LineShell.Proofs.Reparsing
import LineShell.Proofs.Ascii
import LineShell.Proofs.Completing
import LineShell.Proofs.Screen
import LineShell.Proofs.Truncation
import LineShell.Proofs.Quoting
import LineShell.Proofs.Ways
import LineShell.Proofs.Children
import LineShell.Proofs.Echoing
import LineShell.Proofs.Lookup
import LineShell.Proofs.LineFeeds
import LineShell.Proofs.Arguments
import LineShell.Proofs.Terminal
import LineShell.Proofs.Meaning
import LineShell.Proofs.Offering
import LineShell.Proofs.Folding
import LineShell.Proofs.Moving
import LineShell.Proofs.Leaving
import LineShell.Proofs.Matching
import LineShell.Proofs.Tabs
import LineShell.Proofs.Inserting
import LineShell.Proofs.WrittenDocuments
import LineShell.Proofs.Reloading
import LineShell.Proofs.Requests
import LineShell.Proofs.RepeatedTabs
import LineShell.Proofs.AltKeys
import LineShell.Proofs.Destinations
import LineShell.Proofs.Refusals
import LineShell.Proofs.Composing
import LineShell.Proofs.Unopened
import LineShell.Proofs.Interruptions
import LineShell.Proofs.Merging
import LineShell.Proofs.Numerals
import LineShell.Proofs.Spellings
import LineShell.Proofs.Backslashes
import LineShell.Proofs.Progress
