import EntropyCoding.CommandLine
import EntropyCoding.Image.Correlation
import EntropyCoding.Image.TransformGrid
import EntropyCoding.Listing.ContextTable
import EntropyCoding.Main
import EntropyCoding.Proofs.Segment.RoundTrip
import EntropyCoding.Proofs.Segment.Truncation
import EntropyCoding.Segment.Decode
import EntropyCoding.Proofs.Checked.Arithmetic
import EntropyCoding.Proofs.Ans.Inverse
import EntropyCoding.Proofs.Checked.Agreement
import EntropyCoding.Proofs.Checked.Reader
import EntropyCoding.Proofs.Checked.Table
import EntropyCoding.Proofs.Checked.Code
import EntropyCoding.Proofs.Checked.Models
import EntropyCoding.Proofs.Checked.Decode
import EntropyCoding.Proofs.Segment.Session
import EntropyCoding.Proofs.Checked.Session
import EntropyCoding.Proofs.Ans.Normalize
import EntropyCoding.Proofs.Context.Coverage
import EntropyCoding.Proofs.Prefix.Coverage
import EntropyCoding.Proofs.Segment.Building
import EntropyCoding.Proofs.Segment.Success
import EntropyCoding.Proofs.Prefix.RoundTrip
import EntropyCoding.Proofs.Context.Conservation
import EntropyCoding.Proofs.Context.RoundTrip
import EntropyCoding.Proofs.Histogram.Routing
import EntropyCoding.Proofs.Bits.Refinement
import EntropyCoding.Proofs.Segment.Rewriting
import EntropyCoding.Proofs.Image.Placement
import EntropyCoding.Proofs.Image.Changes
import EntropyCoding.Proofs.Checked.Grid
import EntropyCoding.Proofs.Image.Area
import EntropyCoding.Proofs.Image.Layout
import EntropyCoding.Proofs.Segment.TokenOrder
import EntropyCoding.Proofs.Checked.Depths
import EntropyCoding.Proofs.Checked.Normalize
import EntropyCoding.Proofs.Prefix.Optimality
import EntropyCoding.Proofs.Ans.Closest
import EntropyCoding.Proofs.Checked.Split
import EntropyCoding.Proofs.Prefix.Extension
import EntropyCoding.Proofs.Checked.Extension
import EntropyCoding.Proofs.Prefix.Dyadic
import EntropyCoding.Proofs.Prefix.CodewordOrder
import EntropyCoding.Proofs.Prefix.Progress
import EntropyCoding.Proofs.Segment.Refusal
import EntropyCoding.Proofs.Checked.Payload
import EntropyCoding.Proofs.Segment.Costless
import EntropyCoding.Proofs.Token.Order
import EntropyCoding.Proofs.Checked.Histogram
import EntropyCoding.Proofs.Prefix.Exchange
import EntropyCoding.Proofs.Prefix.NewSymbols
import EntropyCoding.Proofs.Listing.ContextTable
import EntropyCoding.Proofs.Listing.Places
import EntropyCoding.Proofs.Checked.Listing
