import Transducer.Automaton.Edit
import Transducer.Main
import Transducer.Proofs.Apply.Queue
import Transducer.Proofs.Weight.Rounding
import Transducer.Proofs.Words.Shortlex
import Transducer.Proofs.Worklist
import Transducer.Proofs.Weight.Sum
import Transducer.Proofs.Flag.Agree
import Transducer.Proofs.Alphabet
import Transducer.Proofs.Apply.Meaning
import Transducer.Proofs.Apply.Trace
import Transducer.Proofs.Apply.Exact
import Transducer.Proofs.Apply.Order
import Transducer.Proofs.State
import Transducer.Proofs.Grammar.Language
import Transducer.Proofs.Apply.Options
import Transducer.Proofs.Automaton.Reached
import Transducer.Proofs.Export.Renamed
import Transducer.Proofs.Apply.Finite
import Transducer.Proofs.Grammar.Membership
import Transducer.Proofs.Automaton.Relabelled
import Transducer.Proofs.Apply.Inverse
import Transducer.Proofs.Apply.RoundTrip
import Transducer.Proofs.Apply.Termination
import Transducer.Proofs.Export.Table
import Transducer.Proofs.Words.Strings
import Transducer.Proofs.Command.WordReport
import Transducer.Proofs.Weight.Shortest
import Transducer.Proofs.Export.Determined
import Transducer.Proofs.ArcSet
import Transducer.Proofs.Export.Key
import Transducer.Proofs.Export.Names
import Transducer.Proofs.Apply.Ranges
import Transducer.Proofs.Indexed
import Transducer.Proofs.Apply.Unknown
import Transducer.Proofs.Apply.Unused
import Transducer.Proofs.Grammar.Assembly
import Transducer.Proofs.Alphabet.Tokens
import Transducer.Proofs.Spelling.Declared
import Transducer.Proofs.Spelling.Items
import Transducer.Proofs.Automaton.Degree
import Transducer.Proofs.Grammar.Shape
import Transducer.Proofs.Flag.Scan
import Transducer.Proofs.Automaton.BreadthFirst
import Transducer.Proofs.Words.Copied
import Transducer.Proofs.Json.Strings
import Transducer.Proofs.Json.Lexemes
import Transducer.Proofs.Json.Text
import Transducer.Proofs.Document
import Transducer.Proofs.Weight.Exact
import Transducer.Proofs.Export.Codes
import Transducer.Proofs.Export.Listing
import Transducer.Proofs.Export.Network
import Transducer.Proofs.Command.Options
import Transducer.Proofs.Command.ResultReport
import Transducer.Proofs.Flag.Refused
import Transducer.Proofs.Flag.Numbering
import Transducer.Proofs.Apply.OneLabel
