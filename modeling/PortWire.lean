import PortWire.Bridge
import PortWire.Compiler.Session
import PortWire.FileMap.Session
import PortWire.Json.Codec
import PortWire.Reader.Session
import PortWire.Proofs.FileMap.Spacing
import PortWire.Proofs.Reader.DynamicLength
import PortWire.Proofs.Reader.Driving
import PortWire.Proofs.FileMap.Lookup
import PortWire.Proofs.Reader.Progress
import PortWire.Proofs.Reader.Steps
import PortWire.Proofs.Reader.Linkage
import PortWire.Proofs.Reader.Failure
import PortWire.Proofs.Program.Truncation
import PortWire.Proofs.Compiler.ElementRun
import PortWire.Proofs.Compiler.Appending
import PortWire.Proofs.FileMap.Handles
import PortWire.Proofs.Exchange.RoundTrip
import PortWire.Proofs.FileMap.Placement
import PortWire.Proofs.Bridge.Transport
import PortWire.Proofs.Bridge.Plans
import PortWire.Proofs.FileMap.Admission
import PortWire.Proofs.FileMap.Allocation
import PortWire.Proofs.FileMap.Room
import PortWire.Proofs.Reader.LiteralLength
import PortWire.Proofs.FileMap.SharedStarts
import PortWire.Proofs.FileMap.AddressSpace
import PortWire.Proofs.FileMap.PlacingOrder
import PortWire.Proofs.FileMap.Reversal
import PortWire.Proofs.Compiler.RefusedPort
import PortWire.Proofs.Reader.Locality
import PortWire.Proofs.Reader.Composition
import PortWire.Proofs.Reader.PrimitiveItems
import PortWire.Proofs.Reader.Amplification
import PortWire.Proofs.Reader.Resources
import PortWire.Proofs.Reader.Abandonment
import PortWire.Proofs.Reader.RecordItems
import PortWire.Proofs.Reader.Courses
import PortWire.Proofs.Reader.LengthLimit
import PortWire.Proofs.Reader.FixedText
